import Covsight.UcisWriter.Theorems.Calls

-- Runs of calls, and the document once the database is closed.

open Xml Markup

variable {accepts : Accepts UInt8}

-- What a call shows of its bins. Only statements are shown without their name.
def coverBins (name : Option (List UInt8)) (data : UwCoverData) : List UwAttrs :=
  [binOf (if data.type &&& ucisStmtbin ≠ 0 then none else name) (coverCount data)]

def UwApiCall.bins : UwApiCall → List UwAttrs
  | .statement (some d)                => [binOf none d.count.toNat]
  | .bin (some d)                      => [binOf d.name d.count.toNat]
  | .createNextCover name (some data) _ => coverBins name data
  | _                                  => []

theorem coverCount_coverOf (d : UwBinDesc) (type : UcisCoverType) : coverCount (uwCoverOf d type) = d.count.toNat := by
  have hflags (b b' b'' : Bool) :
      (ucisIs64Bit ||| (if b then ucisHasGoal else 0) ||| (if b' then ucisHasWeight else 0) |||
        (if b'' then ucisExcluded else 0)) &&& ucisIsVector = 0 ∧
      (ucisIs64Bit ||| (if b then ucisHasGoal else 0) ||| (if b' then ucisHasWeight else 0) |||
        (if b'' then ucisExcluded else 0)) &&& ucisIs64Bit ≠ 0 := by
    revert b b' b''
    decide
  have hd := hflags (d.goal > 0) (d.weight > 0) d.excluded
  simp only [decide_eq_true_eq] at hd
  simp [coverCount, UwCoverData.has, uwCoverOf, hd]

namespace Leaves

variable {shown : List UwAttrs}

theorem try' {m rest : Uw UcisWriterStatus} (hm : Leaves accepts m []) (hr : Leaves accepts rest []) :
    Leaves accepts (uwTry m rest) [] :=
  hm.bind fun rc => ite hr (done rc)

theorem copyBounded {cap : Nat} {src : Option (List UInt8)} : Leaves accepts (uwCopyBounded cap src) [] := by
  cases src
  case none     => exact done _
  case some src =>
    rw [uwCopyBounded]
    split
    case isTrue  => exact warn.seq (done _)
    case isFalse => exact done _

theorem crossAddCvp {name : Option (List UInt8)} : Leaves accepts (uwCrossAddCvp name) [] := by
  refine read fun db => ite (warn.seq (done _)) ?_
  cases db.cvpbins.get uwCvpNamespace (name.getD [])
  case none     => exact fail (by decide)
  case some ord => exact copyBounded.bind fun _ => (keep (by exact fun _ => ⟨rfl, rfl, rfl, rfl, rfl, rfl, rfl, rfl⟩)).seq (done _)

theorem crossAddCvps (crossed : List (Option (List UInt8))) : Leaves accepts (uwCrossAddCvps crossed) [] := by
  induction crossed
  case nil                  => exact done _
  case cons name crossed hi => exact crossAddCvp.try' hi

theorem stageOpts {weight goal atLeast autoBinMax numPrintMissing : Int} {detectOverlap perInstance mergeInstances : Bool} :
    Leaves accepts (uwStageOpts weight goal atLeast autoBinMax detectOverlap numPrintMissing perInstance mergeInstances) [] :=
  keep (by exact fun _ => ⟨rfl, rfl, rfl, rfl, rfl, rfl, rfl, rfl⟩)

theorem setExprTerms {terms : Option (List UInt8)} : Leaves accepts (uwSetExprTerms terms) [] :=
  copyBounded.bind fun _ => keep (by exact fun _ => ⟨rfl, rfl, rfl, rfl, rfl, rfl, rfl, rfl⟩)

theorem opens {m : Uw UcisWriterStatus} (h : ∀ bins, Spec accepts (Rests bins) m (Yields (Rests bins))) :
    Leaves accepts m [] :=
  yields fun bins => by
    rw [List.append_nil]
    exact h bins

-- What reads the innermost element first
theorem onTop {α : Type} {f : Option UwElem → Uw α} (h : ∀ el, Leaves accepts (f el) shown) :
    Leaves accepts (uwElTop >>= f) shown :=
  fun bins => Spec.atTop fun el => Spec.pre (h el bins) fun _ _ h => h.left

theorem cover (d : UwBinDesc) (type : UcisCoverType) {m : UwCoverData → Uw UcisWriterStatus} {name : Option (List UInt8)}
    (h : ∀ bins data, Spec accepts (Rests bins) (m data) (Yields (Rests (bins ++ [binOf name (coverCount data)])))) :
    Leaves accepts (m (uwCoverOf d type)) [binOf name d.count.toNat] := by
  have hm := yields fun bins => h bins (uwCoverOf d type)
  rwa [coverCount_coverOf] at hm

theorem statement (d : Option UwStatementDesc) : Leaves accepts (uwStatement d) (UwApiCall.statement d).bins := by
  cases d
  case none   => exact failed (by decide)
  case some d =>
    let b : UwBinDesc := { count := d.count, weight := d.weight, excluded := d.excluded }
    exact (cover b ucisStmtbin (m := fun data => uwEmitStatement d.name data (some d.src)) fun bins data =>
      Spec.emitStatement).discard.seq rc

theorem bin (d : Option UwBinDesc) : Leaves accepts (uwBin d) (UwApiCall.bin d).bins := by
  cases d
  case none   => exact failed (by decide)
  case some d =>
    refine onTop fun el => ?_
    cases el
    case none     => exact failed (by decide)
    case some top =>
      refine ite ((cover d _ fun _ _ => Spec.emitBranch).discard.seq rc) <|
        ite ((cover d _ fun _ _ => Spec.emitToggleBin).discard.seq rc) <|
        ite ((cover d _ fun _ _ => Spec.emitExprBin).discard.seq rc) <|
        ite ((cover d _ fun _ _ => Spec.emitCvgBin).discard.seq rc) (failed (by decide))

end Leaves

namespace Spec

variable {bins : List UwAttrs}

-- What is written before the first instance
theorem rootSealed : Spec accepts (Rests bins) uwRootSeal (Fine (Rests bins)) := by
  refine pre rootSeal fun c o h => ⟨fun hp => ?_, fun _ => fine_ok.mpr h⟩
  have hpend : c.Pending := by
    obtain ⟨e, es, hs⟩ := List.exists_cons_of_ne_nil h.written.sane.nonempty
    have hi := h.written.sane.inner
    rw [hs] at hp hi
    refine ⟨e, es, hs, ?_⟩
    -- Only the innermost element can be pending.
    by_contra hne
    obtain ⟨last, hlast, hpl⟩ := (Option.any_eq_true _ _).mp hp
    rcases List.mem_cons.mp (List.mem_of_getLast? hlast) with rfl | hmem
    case inl => exact hne hpl
    case inr => simp [hi last hmem] at hpl
  exact ⟨hpend, fun attrs => fine_ok.mpr ⟨h.written.attrs hpend attrs, h.whole⟩⟩

theorem body : Spec accepts (Rests bins) uwBody (Fine fun c o => Rests bins c o ∧ c.phase ≠ .tables) := by
  refine rootSealed.tryBufOk (pre tablesFlush fun c o h => ⟨fun hp => fine_ok.mpr ⟨h, hp⟩, fun hp => ?_⟩)
  have hsane := h.written.sane
  obtain ⟨hone, hinst⟩ := hsane.tables hp
  have hu : c.Undeferred := by
    intro e he _
    obtain ⟨es, hs⟩ := List.head?_eq_some_iff.mp he
    have hplaced := hsane.placed
    rw [hs] at hone hplaced
    exact (hplaced.left.root hone).right.right
  refine ⟨hu, by rw [hone]; decide, fun shapes hshapes => fine_ok.mpr ⟨⟨h.written.tables hp hshapes, fun _ hi => ?_⟩, ?_⟩⟩
  case refine_1 => exact absurd hinst hi
  case refine_2 => exact fun hb : UwPhase.body = .tables => by cases hb

-- An instance that is opened where the document is the only element
theorem enterInstance {c c' : UwDb} {o : UwOutline} (h : Written bins c o) (hl : c.stack.length = 1) (hp : c.phase ≠ .tables)
    {file line : UInt32} (attrs : UwAttrs)
    (hs : c'.stack = (c.settle.push (.withId file line 1 (.of .instanceCoverages ucisInstance))).stack)
    (hd : c'.instDepth = c'.stack.length)
    (hsame : c'.phase = c.phase ∧ c'.curKind = .none ∧ c'.instCount = c.instCount + 1 ∧ c'.err = c.err) :
    Rests bins c' (((c.settled o).start .instanceCoverages).attrs attrs) := by
  obtain ⟨hphase, hk, hi, herr⟩ := hsame
  have hw := (h.settle.inst (settle_settled c) (by rwa [settle_length]) hp file line).attrs ⟨_, _, rfl, rfl⟩ attrs
  have hdepth : c'.instDepth = 2 := by
    rw [hd, hs, push_length, settle_length, hl]
  exact ⟨hw.same hs hphase hdepth hk hi fun hok => herr ▸ hok, fun _ _ hne => absurd hk hne⟩

-- The instance that is opened once the tables are written
theorem openInstance {name : Option (List UInt8)} {srcinfo : Option UwSourceInfo} {duName : Option (List UInt8)} :
    Spec accepts (fun c o => Rests bins c o ∧ c.phase ≠ .tables)
      (uwTry (uwElUnwind 1) <| uwTry (uwElBegin .instanceCoverages ucisInstance) do
        uwNameAttrs name
        Functor.discard <| uwTextAttr .moduleName duName
        Functor.discard <| uwTextAttrU64 .instanceId ((← get).instCount + 1).toNat
        uwElSetId (uwFileid srcinfo) (uwLine srcinfo) 1 false
        modify fun db =>
          { db with
            instCount := db.instCount + 1, instDepth := db.stack.length, curKind := .none, blockMode := 0 }
        let cgModule ← uwCopyBounded 128 duName
        modify fun db => { db with cgModule }
        return .ok) (Fine (Rests bins)) := by
  have hset {Q : PUnit → UwDb → UwOutline → Prop} : Spec accepts _ _ Q :=
    change (f := fun db : UwDb =>
        { db with instCount := db.instCount + 1, instDepth := db.stack.length, curKind := .none, blockMode := 0 })
      (g := fun db => { db with instCount := db.instCount + 1, instDepth := db.stack.length, curKind := .none, blockMode := 0 })
      (fun _ => rfl) (fun db => by simp [UwDb.core]) fun _ => rfl
  refine pre (tryOk (elUnwind bins (Nat.le_refl 1)) <| tryOk elEnter <| nameAttrs.seq <| textAttr.discard.seq <| read fun db =>
    attrU64.discard.seq <| elSetId.seq <| hset.seq <| bind copyBounded fun cgModule =>
    (modified (by exact fun _ => ⟨rfl, rfl, rfl⟩)).seq (done (Q := Fine (Rests bins)) _)) fun c o h => ?_
  obtain ⟨hrests, hphase⟩ := h
  refine ⟨hrests.written, fun c' o' hw hkept hl => fine_ok.mpr ?_⟩
  have hpos := List.length_pos_iff.mpr hrests.written.sane.nonempty
  have hone : c'.stack.length = 1 := by omega
  have hpend := push_pending c'.settle .instanceCoverages ucisInstance
  refine ⟨by rw [hone]; decide, hw.sane.room, fine_ok.mpr ⟨hpend, fun _ => hpend, fun db _ => ⟨hpend, fine_ok.mpr ?_⟩⟩⟩
  rw [Outline.attrs_attrs, Outline.attrs_attrs]
  exact enterInstance hw hone (hkept.phase ▸ hphase) _ rfl rfl ⟨rfl, rfl, rfl, rfl⟩

end Spec

namespace Leaves

theorem same {α : Type} {m : Uw α} (h : ∀ bins, Spec accepts (Rests bins) m fun _ => Rests bins) : Leaves accepts m [] :=
  fun bins => by
    rw [List.append_nil]
    exact h bins

theorem createInstance {parent : Bool} {name : Option (List UInt8)} {srcinfo : Option UwSourceInfo} {type : UcisScopeType}
    {duName : Option (List UInt8)} : Leaves accepts (ucisCreateInstanceByName parent name srcinfo type duName) [] := by
  refine ite ((fail (by decide)).discard.seq (done false)) <| ite ((fail (by decide)).discard.seq (done false)) <|
    bind (same fun bins => ?_) fun rc => done _
  exact Spec.post (Spec.tryOk Spec.body Spec.openInstance) fun _ _ _ h => h.right

end Leaves

-- Closing a kind of coverage also closes its instance.
theorem Written.closing {bins : List UwAttrs} {c : UwDb} {o o' : UwOutline} (h : Written bins c o) (top : UwElem) (hl : 1 < c.stack.length)
    (hmem : top ∈ c.stack.head?) (hw : Written bins c.leave o') :
    Rests bins c.leave o' ∨ c.leave.stack.length = 2 ∧ top.owned := by
  obtain ⟨es, hs⟩ := List.head?_eq_some_iff.mp hmem
  obtain ⟨_, herr, _, hd⟩ := leave_fields c
  have hplaced := h.sane.placed
  have hes : c.leave.stack = es := by rw [leave_stack, hs, List.tail_cons]
  rw [hs] at hl hplaced
  rcases Nat.lt_trichotomy es.length 2 with hlt | htwo | hgt
  case inl =>
    -- What goes is the instance.
    obtain ⟨htag, htype⟩ := hplaced.left.base (by rw [List.length_cons] at hl; omega)
    rcases hd with ⟨hne, _, _⟩ | ⟨_, hzero, _⟩
    case inl => exact absurd ⟨by rw [htag]; rfl, htype⟩ (hne top hmem)
    case inr => exact .inl ⟨hw, fun _ hinst => absurd hzero hinst⟩
  case inr.inl =>
    by_cases hok : c.err = .ok
    case neg => exact .inl ⟨hw, fun hok' => absurd (herr ▸ hok') hok⟩
    case pos =>
      have hspine := h.spine hok
      rw [hs] at hspine
      exact .inr ⟨hes ▸ htwo, (hspine.left htwo).right.right⟩
  case inr.inr => exact .inl ⟨hw, fun _ _ _ => hes ▸ hgt⟩

namespace Spec

variable {bins : List UwAttrs}

theorem closeScope (fuel : Nat) :
    Spec accepts
      (fun c o => Written bins c o ∧ c.stack.length ≤ fuel + 1 ∧ (Rests bins c o ∨ c.stack.length = 2))
      (uwCloseScope fuel) fun _ => Rests bins := by
  induction fuel
  case zero         =>
    refine pre (done (Q := fun _ => Rests bins) _) fun c o h => ?_
    obtain ⟨_, hl, hr⟩ := h
    exact hr.resolve_right (by omega)
  case succ fuel hi =>
    refine pre (read (W := fun db c o => db.core = c ∧ Written bins c o ∧ c.stack.length ≤ fuel + 2 ∧
      (Rests bins c o ∨ c.stack.length = 2)) fun db => ?_) fun c o h db hdb => ⟨hdb, h⟩
    have hstop {l : List UwElem} (hstack : db.stack = l) (hl : l.length < 2) : Spec accepts (fun c o => db.core = c ∧ Written bins c o ∧
        c.stack.length ≤ fuel + 2 ∧ (Rests bins c o ∨ c.stack.length = 2)) (return ⟨⟩) fun (_ : PUnit) => Rests bins := by
      refine pre (done (Q := fun _ => Rests bins) _) fun c o h => ?_
      obtain ⟨rfl, _, _, hr⟩ := h
      rw [core_length, hstack] at hr
      exact hr.resolve_right (Nat.ne_of_lt hl)
    cases hs : db.stack
    case nil            => exact hstop hs (by decide)
    case cons top below =>
      cases below
      case nil       => exact hstop hs (by simp)
      case cons e es =>
        refine pre (bind (Q := fun rc c o => rc = .ok ∧ Written bins c o ∧ c.stack.length ≤ fuel + 1 ∧
          (Rests bins c o ∨ c.stack.length = 2 ∧ top.owned)) (closeElem bins) fun rc => pre (ite hi (done (Q := fun _ => Rests bins) _)) ?_)
          fun c o h => ?_
        case refine_1 =>
          rintro c o ⟨rfl, hw, hl, hr⟩
          exact ⟨fun ho => ⟨hw, hl, hr.imp_right And.left⟩, fun ho => hr.resolve_right fun h => ho ⟨rfl, h.right⟩⟩
        case refine_2 =>
          obtain ⟨rfl, hw, hl, _⟩ := h
          have hlen : db.core.stack.length = es.length + 2 := by rw [core_length, hs]; rfl
          have hmem : top.core ∈ db.core.stack.head? := by rw [UwDb.core, hs]; rfl
          refine ⟨hw, by omega, fun o' hw' => ⟨rfl, hw', ?_, hw.closing top.core (by omega) hmem hw'⟩⟩
          rw [leave_stack, List.length_tail]
          omega

end Spec

namespace Leaves

theorem writeStream : Leaves accepts ucisWriteStream [] := by
  have hcommit : Leaves accepts uwElCommit [] := same fun bins => Spec.pre Spec.elCommit fun c o h =>
    ⟨h.written.sane.room, h.written.settle, by rw [settle_length]; exact h.whole⟩
  exact hcommit.discard.seq rc

theorem writeStreamScope : Leaves accepts ucisWriteStreamScope [] := by
  refine fun bins => Spec.pre (Spec.read (W := fun db c o => db.core = c ∧ Rests bins c o) fun db => ?_) fun c o h db hdb => ⟨hdb, h⟩
  refine Spec.pre (Spec.ite (failed (by decide) bins) (Spec.seq (Spec.closeScope _) (rc bins))) fun c o h => ⟨fun _ => h.right, fun _ => ⟨h.right.written, ?_, .inl h.right⟩⟩
  rw [← h.left, Spec.core_length]
  exact Nat.le_succ _

end Leaves

theorem Spec.rcKeeps {P : UwDb → UwOutline → Prop} : Spec accepts P uwRc fun _ => P :=
  pre (read (W := fun _ => P) fun _ => done (Q := fun _ => P) _) fun _ _ h _ _ => h

theorem Spec.attrHere {bins : List UwAttrs} {attr : UwAttr} {value : Option (List UInt8)} :
    Spec accepts (fun c o => Rests bins c o ∧ c.Pending) (Functor.discard <| uwTextAttr attr value)
      fun _ c o => Rests bins c o ∧ c.Pending :=
  pre textAttr.discard fun _ _ h => ⟨fun _ => h.right, ⟨h.left.written.attrs h.right _, h.left.whole⟩, h.right⟩

theorem Spec.whenever {α : Type} {P : UwDb → UwOutline → Prop} {m : Uw α} {Q : α → UwDb → UwOutline → Prop} {b : Prop} [Decidable b]
    {n : Uw PUnit} (hn : Spec accepts P n fun _ => P) (hm : Spec accepts P m Q) :
    Spec accepts P (if b then (n >>= fun _ => m) else m) Q :=
  pre (when hn hm) fun _ _ h => ⟨fun _ => h, fun _ => h⟩

namespace Leaves

variable {shown : List UwAttrs}
variable {name : Option (List UInt8)}

theorem kept {α : Type} {m : Uw α} (h : Leaves accepts m []) (bins : List UwAttrs) :
    Spec accepts (Rests bins) m fun _ => Rests bins :=
  Spec.post (h bins) fun _ _ _ hr => by rwa [List.append_nil] at hr

theorem setPretty {enable : Bool} : Leaves accepts (ucisWriterSetPretty enable) [] := by
  refine same fun bins => Spec.seq ?_ (Spec.done (Q := fun _ => Rests bins) _)
  exact Spec.pre (Spec.change (f := fun db => { db with pretty := enable }) (g := id) (Q := fun _ => Rests bins) (fun _ => rfl)
    (fun _ => rfl) fun _ => rfl) fun _ _ h => h

theorem setWrittenBy (who : Option (List UInt8)) : Leaves accepts (ucisWriterSetWrittenBy who) [] := by
  cases who
  case none     => exact done _
  case some who => exact read fun db => ite (failed (by decide)) ((keep (by exact fun _ => ⟨rfl, rfl, rfl, rfl, rfl, rfl, rfl, rfl⟩)).seq rc)

theorem setWrittenTime (datetime : Option (List UInt8)) : Leaves accepts (ucisWriterSetWrittenTime datetime) [] := by
  cases datetime
  case none          => exact done _
  case some datetime =>
    exact ite (failed (by decide)) <| read fun db => ite (failed (by decide))
      ((keep (by exact fun _ => ⟨rfl, rfl, rfl, rfl, rfl, rfl, rfl, rfl⟩)).seq rc)

theorem filehandle (filename workdir : Option (List UInt8)) : Leaves accepts (uwFilehandle filename workdir) [] := by
  cases filename
  case none          => exact (fail (by decide)).discard.seq (done _)
  case some filename =>
    refine read fun db => ?_
    generalize db.files.intern { filename, workdir } = result
    obtain ⟨f, files⟩ := result
    refine (keep (by exact fun _ => ⟨rfl, rfl, rfl, rfl, rfl, rfl, rfl, rfl⟩)).seq (ite ((fail (by decide)).discard.bind fun _ => done _) (done _))

theorem histCreate {logicalname physicalname : Option (List UInt8)} {kind : Int} :
    Leaves accepts (uwHistCreate logicalname physicalname kind) [] :=
  read fun db => (keep (by exact fun _ => ⟨rfl, rfl, rfl, rfl, rfl, rfl, rfl, rfl⟩)).seq (done _)

theorem setHist {i : Nat} {f : UwHist → UwHist} : Leaves accepts (uwSetHist i f) [] :=
  keep (by exact fun _ => ⟨rfl, rfl, rfl, rfl, rfl, rfl, rfl, rfl⟩)

theorem createHistoryNode {parent : Option Nat} {logicalname physicalname : Option (List UInt8)} {kind : Int} :
    Leaves accepts (ucisCreateHistoryNode parent logicalname physicalname kind) [] := by
  refine read fun db => ite ((fail (by decide)).discard.seq (done _)) (histCreate.bind fun h => ?_)
  cases parent
  case none        => exact done _
  case some parent => exact read fun db => setHist.seq (done _)

theorem setTestData (node : Option Nat) (data : Option UcisTestData) : Leaves accepts (ucisSetTestData node data) [] := by
  cases node
  case none      => exact failed (by decide)
  case some node =>
    cases data
    case none      => exact failed (by decide)
    case some data => exact setHist.seq rc

theorem test (d : Option UwTestDesc) : Leaves accepts (uwTest d) [] := by
  cases d
  case none   => exact (fail (by decide)).discard.seq (done _)
  case some d =>
    exact read fun db => ite ((fail (by decide)).discard.seq (done _)) (histCreate.bind fun h => setHist.seq (done _))

theorem openScope {srcinfo : Option UwSourceInfo} :
    Leaves accepts (uwOpenExpr name srcinfo) [] :=
  opens fun _ => Spec.openScope

theorem openToggle {name canonicalName : Option (List UInt8)} {type dir : Int} :
    Leaves accepts (uwOpenToggle name canonicalName type dir) [] :=
  opens fun _ => Spec.openToggle

theorem createScope {parent : Bool} {srcinfo : Option UwSourceInfo} {type : UcisScopeType} :
    Leaves accepts (ucisCreateScope parent name srcinfo type) [] := by
  have hbranch : Leaves accepts (uwOpenBranchStatement name srcinfo) [] :=
    opens fun _ => Spec.yieldsImp Spec.openBranchStatement fun _ _ h => h.left
  exact ite ((fail (by decide)).discard.seq (done _)) <|
    ite ((keep (by exact fun _ => ⟨rfl, rfl, rfl, rfl, rfl, rfl, rfl, rfl⟩)).seq (done _)) <|
    ite (read fun db => createInstance) <|
    ite (openScope.bind fun _ => done _) <|
    ite (hbranch.bind fun _ => done _) <|
    ite (bind (opens fun _ => Spec.openCovergroup) fun _ => done _) <|
    ite (bind (opens fun _ => Spec.openCoverinstance) fun _ => done _) <|
    ite (bind (opens fun _ => Spec.yieldsImp Spec.openCoverpoint fun _ _ h => h.left) fun _ => done _) <|
    ite (bind (opens fun _ => Spec.openCross) fun _ => done _) <|
    (fail (by decide)).discard.seq (done _)

theorem iteOf {α : Type} {b : Prop} [Decidable b] {m m' : Uw α} (hm : b → Leaves accepts m shown) (hm' : ¬b → Leaves accepts m' shown) :
    Leaves accepts (if b then m else m') shown := by
  split
  case isTrue hb  => exact hm hb
  case isFalse hb => exact hm' hb

theorem createNextCover (name : Option (List UInt8)) (data : Option UwCoverData) (srcinfo : Option UwSourceInfo) :
    Leaves accepts (ucisCreateNextCover name data srcinfo) (UwApiCall.createNextCover name data srcinfo).bins := by
  cases data
  case none      => exact failed (by decide)
  case some data =>
    have hbin {m : Uw UcisWriterStatus} (hn : ¬data.type &&& ucisStmtbin ≠ 0)
        (h : ∀ bins, Spec accepts (Rests bins) m (Yields (Rests (bins ++ [binOf name (coverCount data)])))) :
        Leaves accepts (do Functor.discard m; uwRc) (coverBins name data) := by
      rw [coverBins, if_neg hn]
      exact (yields h).discard.seq rc
    refine iteOf (fun hs => ?_) fun hn => ite (hbin hn fun _ => Spec.emitBranch) <| ite (hbin hn fun _ => Spec.emitToggleBin) <|
      ite (hbin hn fun _ => Spec.emitExprBin) <| ite (hbin hn fun _ => Spec.emitCvgBin) ((fail (by decide)).discard.seq rc)
    change Leaves accepts _ (coverBins name data)
    rw [coverBins, if_pos hs]
    exact (yields fun _ => Spec.emitStatement).discard.seq rc

theorem opened {m : Uw UcisWriterStatus} (hm : Leaves accepts m []) : Leaves accepts (do Functor.discard m; uwRc) [] :=
  hm.discard.seq rc

theorem toggleBit : Leaves accepts (uwToggleBit name) [] :=
  onTop fun _ => ite (failed (by decide)) (opened openToggle)

theorem exprMetric : Leaves accepts (uwExprMetric name) [] :=
  onTop fun _ => ite (failed (by decide)) (opened openScope)

theorem branch (d : Option UwBranchDesc) : Leaves accepts (uwBranch d) [] := by
  cases d
  case none   => exact failed (by decide)
  case some d =>
    refine same fun bins => Spec.bind Spec.openBranchStatement fun rc => ?_
    exact Spec.pre (Spec.ite (Spec.done (Q := fun _ => Rests bins) _) (Spec.whenever Spec.attrHere <| Spec.whenever Spec.attrHere <|
      Spec.post Spec.rcKeeps fun _ _ _ h => h.left)) fun c o h => ⟨fun hne => (h.right hne).rests bins, fun hok => h.left (not_not.mp hok)⟩

theorem toggle (d : Option UwToggleDesc) : Leaves accepts (uwToggle d) [] := by
  cases d
  case none   => exact failed (by decide)
  case some d => exact opened openToggle

theorem expr (d : Option UwExprDesc) : Leaves accepts (uwExpr d) [] := by
  cases d
  case none   => exact failed (by decide)
  case some d => exact openScope.bind fun _ => ite (done _) (ite (setExprTerms.seq rc) rc)

theorem covergroup (d : Option UwCovergroupDesc) : Leaves accepts (uwCovergroup d) [] := by
  cases d
  case none   => exact failed (by decide)
  case some d => exact opened (opens fun _ => Spec.openCovergroup)

-- The options are staged for what was opened.
theorem staged {m : Uw UcisWriterStatus} (hm : Leaves accepts m []) {weight goal atLeast autoBinMax numPrintMissing : Int}
    {detectOverlap perInstance mergeInstances : Bool} :
    Leaves accepts (do
      if (← m) ≠ .ok then
        return -1
      else
        uwStageOpts weight goal atLeast autoBinMax detectOverlap numPrintMissing perInstance mergeInstances
        uwRc) [] :=
  hm.bind fun _ => ite (done _) (stageOpts.seq rc)

theorem cginstance (d : Option UwCginstanceDesc) : Leaves accepts (uwCginstance d) [] := by
  cases d
  case none   => exact failed (by decide)
  case some d => exact staged (opens fun _ => Spec.openCoverinstance)

theorem coverpoint (d : Option UwCoverpointDesc) : Leaves accepts (uwCoverpoint d) [] := by
  cases d
  case none   => exact failed (by decide)
  case some d =>
    refine same fun bins => Spec.bind Spec.openCoverpoint fun _ => ?_
    exact Spec.pre (Spec.ite (Spec.done (Q := fun _ => Rests bins) _) (Spec.attrHere.seq <| Spec.pre ((stageOpts.seq rc).kept bins) fun _ _ h => h.left))
      fun c o h => ⟨fun hne => (h.right hne).rests bins, fun hok => h.left (not_not.mp hok)⟩

theorem cross (d : Option UwCrossDesc) : Leaves accepts (uwCross d) [] := by
  cases d
  case none   => exact failed (by decide)
  case some d => exact staged ((opens fun _ => Spec.openCross).try' (crossAddCvps _))

theorem instance' (d : Option UwInstanceDesc) : Leaves accepts (uwInstance d) [] := by
  cases d
  case none   => exact failed (by decide)
  case some d => exact createInstance.discard.seq rc

theorem createToggle {parent : Bool} {name canonicalName : Option (List UInt8)} {type dir : Int} :
    Leaves accepts (ucisCreateToggle parent name canonicalName type dir) [] :=
  ite ((fail (by decide)).discard.seq (done _)) (openToggle.bind fun _ => done _)

end Leaves

theorem Spec.pendingScope {α : Type} {bins : List UwAttrs} {f : Option UwElem → Uw α} {R : α → UwDb → UwOutline → Prop}
    (h₀ : Spec accepts (Rests bins) (f none) R)
    (h₁ : ∀ el, Spec accepts (fun c o => Rests bins c o ∧ c.Pending) (f (some el)) R) :
    Spec accepts (Rests bins) (uwPendingScope >>= f) R := by
  refine bind (Q := fun el c o => Rests bins c o ∧ (el.isSome → c.Pending)) ?_ fun el => ?_
  case refine_1 =>
    refine atTop fun el => pre (done (Q := fun (el : Option UwElem) c o => Rests bins c o ∧ (el.isSome → c.Pending)) _) fun c o h => ⟨h.left, fun hp => ?_⟩
    obtain ⟨top, htop⟩ := Option.isSome_iff_exists.mp hp
    obtain ⟨rfl, hpend⟩ := Option.filter_eq_some_iff.mp htop
    obtain ⟨es, hs⟩ := List.head?_eq_some_iff.mp h.right.symm
    exact ⟨top.core, es, hs, hpend⟩
  case refine_2 =>
    cases el
    case none    => exact pre h₀ fun _ _ h => h.left
    case some el => exact pre (h₁ el) fun _ _ h => ⟨h.left, h.right rfl⟩

namespace Leaves

theorem dbSlot (value : Option (List UInt8)) (property : UwStringProperty) :
    ∀ f ∈ uwDbSlot value property, Leaves accepts (modify f) [] := by
  intro f hf
  cases property <;> cases hf <;> exact keep (by exact fun _ => ⟨rfl, rfl, rfl, rfl, rfl, rfl, rfl, rfl⟩)

theorem setHistProperty {i : Nat} {what : String} (slot : Option (UwHist → UwHist)) {m : Uw Int} (hm : Leaves accepts m []) :
    Leaves accepts (uwSetHistProperty i what slot m) [] := by
  refine read fun db => ite (failed (by decide)) ?_
  cases slot
  case none   => exact failed (by decide)
  case some f => exact setHist.seq hm

-- What is told of an element that can still get attributes
theorem scopeString {bins : List UwAttrs} (top : UwElem) (value : Option (List UInt8)) (property : UwStringProperty) :
    Spec accepts (fun c o => Rests bins c o ∧ c.Pending) (uwScopeString top value property) fun _ => Rests bins := by
  have hattr {attr : UwAttr} : Spec accepts (fun c o => Rests bins c o ∧ c.Pending)
      (do Functor.discard <| uwTextAttr attr value; return (0 : Int)) fun _ => Rests bins :=
    Spec.attrHere.seq (Spec.pre (Spec.done (Q := fun _ => Rests bins) _) fun _ _ h => h.left)
  have hleft {m : Uw Int} (hm : Leaves accepts m []) : Spec accepts (fun c o => Rests bins c o ∧ c.Pending) m fun _ => Rests bins :=
    Spec.pre (hm.kept bins) fun _ _ h => h.left
  cases property
  case ithCrossedCvpName => exact hleft (ite (failed (by decide)) (crossAddCvp.bind fun _ => done _))
  case instanceDuName    => exact hattr
  case toggleCanonName   => exact hattr
  case uniqueId          => exact hattr
  case uniqueIdAlias     => exact hattr
  case exprTerms         => exact hleft (setExprTerms.seq (done _))
  all_goals exact hleft (failed (by decide))

theorem setStringProperty (obj : UcisObj) {coverindex : Int} {property : UwStringProperty} {value : Option (List UInt8)} :
    Leaves accepts (ucisSetStringProperty obj coverindex property value) [] := by
  refine ite (failed (by decide)) ?_
  cases obj
  case database =>
    cases hslot : uwDbSlot value property
    case none   => exact failed (by decide)
    case some f => exact (dbSlot value property f hslot).seq rc
  case hist i   =>
    refine read fun db => ?_
    cases db.histOf (.hist i)
    case none   => exact same fun bins => Spec.pendingScope ((failed (by decide)).kept bins) fun _ => scopeString _ _ _
    case some i => exact setHistProperty _ rc
  case scope    =>
    exact read fun db => same fun bins => Spec.pendingScope ((failed (by decide)).kept bins) fun _ => scopeString _ _ _

-- A weight that is not staged is written.
theorem scopeWeight {bins : List UwAttrs} {property : UwIntProperty} {value : Int} :
    Spec accepts (fun c o => Rests bins c o ∧ c.Pending)
      (do
        if property = .scopeWeight then
          if value ≠ 1 then
            Functor.discard <| uwTextAttrI64 .weight value
          return (0 : Int)
        else
          uwFailed .errUsage "unsupported scope int property" none) fun _ => Rests bins := by
  have hdone : Spec accepts (fun c o => Rests bins c o ∧ c.Pending) (return (0 : Int)) fun _ => Rests bins :=
    Spec.pre (Spec.done (Q := fun _ => Rests bins) _) fun _ _ h => h.left
  have hattr : Spec accepts (fun c o => Rests bins c o ∧ c.Pending) (Functor.discard <| uwTextAttrI64 .weight value)
      fun _ c o => Rests bins c o ∧ c.Pending :=
    Spec.pre Spec.attrI64.discard fun _ _ h => ⟨h.right, ⟨h.left.written.attrs h.right _, h.left.whole⟩, h.right⟩
  exact Spec.either (Spec.whenever hattr hdone) (Spec.pre ((failed (by decide)).kept bins) fun _ _ h => h.left)

theorem setIntProperty (obj : UcisObj) {coverindex : Int} {property : UwIntProperty} {value : Int} :
    Leaves accepts (ucisSetIntProperty obj coverindex property value) [] := by
  refine ite (failed (by decide)) (read fun db => ?_)
  cases db.histOf obj
  case some i => exact setHistProperty _ (done _)
  case none   =>
    cases obj
    case database => exact failed (by decide)
    all_goals
      refine same fun bins => Spec.pendingScope ((failed (by decide)).kept bins) fun top => ?_
      refine Spec.pre (Spec.read (W := fun _ c o => Rests bins c o ∧ c.Pending) fun db => ?_) fun _ _ h _ _ => h
      dsimp only
      generalize (if top.needsOptions ≠ .none then uwOptsSet db.opts top.needsOptions value property else none) = slot
      cases slot
      case none      => exact scopeWeight
      case some opts =>
        refine Spec.pre (Leaves.kept ?_ bins) fun _ _ h => h.left
        exact (keep (by exact fun _ => ⟨rfl, rfl, rfl, rfl, rfl, rfl, rfl, rfl⟩)).seq (done _)

theorem setRealProperty (obj : UcisObj) {coverindex : Int} {property : UwRealProperty} {value : UwDouble} :
    Leaves accepts (ucisSetRealProperty obj coverindex property value) [] := by
  refine ite (failed (by decide)) (read fun db => ?_)
  cases db.histOf obj
  case none   => exact failed (by decide)
  case some i => exact read fun db => ite (failed (by decide)) (setHist.seq (setHistProperty _ (done _)))

theorem call (c : UwApiCall) : Leaves accepts (uwCall c) c.bins := by
  cases c
  case setPretty         => exact setPretty.discard
  case setWrittenBy      => exact (setWrittenBy _).discard
  case setWrittenTime    => exact (setWrittenTime _).discard
  case file              => exact (filehandle _ _).discard
  case test              => exact (test _).discard
  case historyNode       => exact createHistoryNode.discard
  case testData          => exact (setTestData _ _).discard
  case «instance»        => exact (instance' _).discard
  case statement         => exact (statement _).discard
  case branch            => exact (branch _).discard
  case toggle            => exact (toggle _).discard
  case toggleBit         => exact toggleBit.discard
  case expr              => exact (expr _).discard
  case exprMetric        => exact exprMetric.discard
  case covergroup        => exact (covergroup _).discard
  case cginstance        => exact (cginstance _).discard
  case coverpoint        => exact (coverpoint _).discard
  case cross             => exact (cross _).discard
  case bin               => exact (bin _).discard
  case writeStream       => exact writeStream.discard
  case writeStreamScope  => exact writeStreamScope.discard
  case createInstanceByName => exact createInstance.discard
  case createScope       => exact createScope.discard
  case createNextCover   => exact (createNextCover _ _ _).discard
  case createToggle      => exact createToggle.discard
  case setStringProperty => exact (setStringProperty _).discard
  case setIntProperty    => exact (setIntProperty _).discard
  case setRealProperty   => exact (setRealProperty _).discard

end Leaves
