import Covsight.UcisWriter.Theorems.Runs

-- The document once the database is closed.

open Xml Markup

variable {accepts : Accepts UInt8}

-- The open elements are those of the stack, with the root at the bottom.
structure Shown (tags : List (Option UwTag)) (o : UwOutline) : Prop where
  opens : o.opens.map Open.tag = tags.filterMap id
  named : some .contents ∉ tags
  root  : tags.getLast? = some (some .ucis) ∧ o.shapes = [] ∨ tags = [] ∧ ∃ attrs shapes, o.shapes = [.elem .ucis attrs shapes]

namespace Shown

variable {tags : List (Option UwTag)} {o : UwOutline} (h : Shown tags o)

include h

theorem attrs (as : UwAttrs) : Shown tags (o.attrs as) := by
  cases hf : o.opens
  case nil       => rwa [Outline.attrs, hf]
  case cons f fs =>
    have ho := h.opens
    rw [hf] at ho
    rw [Outline.attrs, hf]
    exact ⟨ho, h.named, h.root⟩

theorem below (hne : tags ≠ []) : tags.getLast? = some (some .ucis) ∧ o.shapes = [] :=
  h.root.resolve_right fun hr => hne hr.left

theorem opens_ne (hne : tags ≠ []) : o.opens ≠ [] := by
  intro hn
  have ho := h.opens
  have hm := List.mem_of_getLast? (h.below hne).left
  rw [hn, List.map_nil] at ho
  have hr : .ucis ∈ tags.filterMap id := List.mem_filterMap.mpr ⟨_, hm, rfl⟩
  rw [← ho] at hr
  cases hr

theorem add (hne : tags ≠ []) (shapes : List UwShape) : Shown tags (o.add shapes) := by
  obtain ⟨f, fs, hf⟩ := List.exists_cons_of_ne_nil (h.opens_ne hne)
  have ho := h.opens
  rw [hf] at ho
  rw [Outline.add, hf]
  exact ⟨ho, h.named, h.root⟩

theorem start (hne : tags ≠ []) {tag : UwTag} (ht : tag ≠ .contents) : Shown (some tag :: tags) (o.start tag) where
  opens := by simp [Outline.start, h.opens]
  named := by simpa [ht.symm] using h.named
  root  := .inl ⟨by rw [List.getLast?_cons_of_ne_nil hne]; exact (h.below hne).left, (h.below hne).right⟩

theorem virtual (hne : tags ≠ []) : Shown (none :: tags) o where
  opens := h.opens
  named := by simpa using h.named
  root  := .inl ⟨by rw [List.getLast?_cons_of_ne_nil hne]; exact (h.below hne).left, (h.below hne).right⟩

-- What binds nothing of a bin is every open element.
theorem collect_attrs (as : UwAttrs) : (o.attrs as).collect binShown = o.collect binShown := by
  refine Outline.collect_attrs _ _ (fun e he bs => if_neg fun ht => h.named ?_) as
  obtain ⟨fs, hf⟩ := List.head?_eq_some_iff.mp he
  have ho := h.opens
  rw [hf, List.map_cons, ht] at ho
  have hm : .contents ∈ tags.filterMap id := ho ▸ .head _
  obtain ⟨tag, hm, ht⟩ := List.mem_filterMap.mp hm
  exact (ht : tag = some .contents) ▸ hm

end Shown

theorem Shown.drop {tags : List (Option UwTag)} {o : UwOutline} (h : Shown (none :: tags) o) : Shown tags o where
  opens := h.opens
  named := fun hm => h.named (.tail _ hm)
  root  := by
    obtain ⟨hl, hs⟩ := h.below (List.cons_ne_nil _ _)
    cases tags
    case nil           => cases hl
    case cons tag tags => exact .inl ⟨hl, hs⟩

theorem Shown.close {tag : UwTag} {tags : List (Option UwTag)} {o : UwOutline} (h : Shown (some tag :: tags) o) :
    Shown tags o.close := by
  obtain ⟨hl, hs⟩ := h.below (List.cons_ne_nil _ _)
  obtain ⟨f, fs, hf⟩ := List.exists_cons_of_ne_nil (h.opens_ne (List.cons_ne_nil _ _))
  have ho := h.opens
  have hn : some UwTag.contents ∉ tags := fun hm => h.named (.tail _ hm)
  have hc : (some tag :: tags).filterMap id = tag :: tags.filterMap id := rfl
  rw [hf, List.map_cons, hc, List.cons.injEq] at ho
  rw [Outline.close, hf]
  cases tags
  case nil           =>
    cases hl
    have hfs : fs = [] := List.map_eq_nil_iff.mp ho.right
    subst hfs
    refine ⟨rfl, hn, .inr ⟨rfl, f.attrs, f.shapes, ?_⟩⟩
    simp [Outline.add, hs, ho.left]
  case cons t tags   =>
    have hbelow : Shown (t :: tags) { o with opens := fs } := ⟨ho.right, hn, .inl ⟨hl, hs⟩⟩
    exact hbelow.add (List.cons_ne_nil _ _) _

theorem tags_modifyHead {f : UwElem → UwElem} (hf : ∀ e, (f e).tag = e.tag) (stack : List UwElem) :
    (stack.modifyHead f).map UwElem.tag = stack.map UwElem.tag := by
  cases stack
  case nil       => rfl
  case cons e es => simp [hf]

theorem collect_none {shapes : List UwShape} (h : ∀ s ∈ shapes, s.collect binShown = []) : collectAll binShown shapes = [] := by
  induction shapes
  case nil               => rfl
  case cons s shapes hi =>
    rw [collectAll, h s (.head _), hi fun s hs => h s (.tail _ hs)]
    rfl

theorem collect_leaf {tag : UwTag} (ht : tag ≠ .contents) (attrs : UwAttrs) : (leaf tag attrs).collect binShown = [] :=
  collect_elem ht attrs []

-- What is put off says nothing of a bin.
theorem collect_due (c : UwDb) (e : UwElem) : collectAll binShown (c.shapesDue e) = [] := by
  have hleaves (n : Nat) {tag : UwTag} (ht : tag ≠ .contents) :
      collectAll binShown (List.replicate n (leaf tag [])) = [] :=
    collect_none fun s hs => List.eq_of_mem_replicate hs ▸ collect_leaf ht []
  have hoptions (variant : UwOpt) : collectAll binShown (c.optionsDue variant) = [] := by
    rw [UwDb.optionsDue, collectAll, collect_leaf (by decide), List.nil_append]
    split
    case isTrue  => exact hleaves _ (by decide)
    case isFalse => rfl
  have hcgid : (c.cgidDue e).collect binShown = [] := rfl
  rw [UwDb.shapesDue, collectAll_append, collectAll_append, collectAll_append]
  split <;> split <;> split <;> split <;> simp [hoptions, hcgid, collect_leaf, hleaves, collectAll]

theorem collect_tables {shapes : List UwShape} (h : AreTables shapes) : collectAll binShown shapes = [] := by
  obtain ⟨sources, hists, rfl, _, hsources, _, hhists⟩ := h
  refine collect_none fun s hs => ?_
  rcases List.mem_append.mp hs with hs | hs
  case inl =>
    obtain ⟨attrs, rfl⟩ := hsources s hs
    exact collect_leaf (by decide) attrs
  case inr =>
    obtain ⟨attrs, rfl⟩ := hhists s hs
    exact collect_leaf (by decide) attrs

-- What is shown up to the end of the document
structure Ending (bins : List UwAttrs) (c : UwDb) (o : UwOutline) : Prop where
  shown : Shown (c.stack.map UwElem.tag) o
  bins  : c.err = .ok → o.collect binShown = bins

namespace Ending

variable {bins : List UwAttrs} {c : UwDb} {o : UwOutline}

theorem tags_ne (hne : c.stack ≠ []) : c.stack.map UwElem.tag ≠ [] :=
  fun h => hne (List.map_eq_nil_iff.mp h)

theorem attrs (h : Ending bins c o) (as : UwAttrs) : Ending bins c (o.attrs as) :=
  ⟨h.shown.attrs as, fun hok => (h.shown.collect_attrs as).trans (h.bins hok)⟩

theorem add (h : Ending bins c o) (hne : c.stack ≠ []) (shapes : List UwShape) :
    Ending (bins ++ collectAll binShown shapes) c (o.add shapes) :=
  ⟨h.shown.add (tags_ne hne) shapes, fun hok => by rw [Outline.collect_add, h.bins hok]⟩

theorem adds (h : Ending bins c o) (hne : c.stack ≠ []) {shapes : List UwShape} (hs : collectAll binShown shapes = []) :
    Ending bins c (o.add shapes) := by
  have ha := h.add hne shapes
  rwa [hs, List.append_nil] at ha

theorem modifyHead (h : Ending bins c o) {f : UwElem → UwElem} (hf : ∀ e, (f e).tag = e.tag) :
    Ending bins (c.withStack (c.stack.modifyHead f)) o where
  shown := by
    rw [withStack_stack, tags_modifyHead hf]
    exact h.shown
  bins  := h.bins

theorem settled (h : Ending bins c o) : Ending bins c (c.settled o) := by
  rw [UwDb.settled]
  split
  case h_1      => exact h
  case h_2 e he =>
    split
    case isTrue  => exact (h.attrs _).adds (List.ne_nil_of_mem (List.mem_of_mem_head? he)) (collect_due c e)
    case isFalse => exact h

theorem settle (h : Ending bins c o) : Ending bins c.settle (c.settled o) :=
  h.settled.modifyHead settle_tag

theorem push (h : Ending bins c o) (hne : c.stack ≠ []) {e : UwElem} {tag : UwTag} (ht : e.tag = some tag)
    (hn : tag ≠ .contents) : Ending bins (c.push e) (o.start tag) where
  shown    := by
    have hs := h.shown.start (tags_ne hne) hn
    rwa [← ht] at hs
  bins hok := (Outline.collect_start binShown (if_neg hn) o).trans (h.bins hok)

theorem leave (h : Ending bins c o) (hne : c.stack ≠ []) : Ending bins c.leave (c.left o) := by
  obtain ⟨e, es, hs⟩ := List.exists_cons_of_ne_nil hne
  obtain ⟨_, herr, _⟩ := leave_fields c
  have hshown := h.shown
  rw [hs, List.map_cons] at hshown
  have hl : c.leave.stack.map UwElem.tag = es.map UwElem.tag := by rw [leave_stack, hs, List.tail_cons]
  rw [UwDb.left, hs, List.head?_cons, Option.any_some]
  refine ⟨?_, fun hok => ?_⟩
  case refine_1 =>
    rw [hl]
    cases ht : e.tag
    case none     =>
      rw [ht] at hshown
      exact hshown.drop
    case some tag =>
      rw [ht] at hshown
      exact hshown.close
  case refine_2 =>
    have hb := h.bins (herr ▸ hok)
    split
    case isTrue  => rwa [Outline.collect_close]
    case isFalse => exact hb

end Ending

theorem Written.ending {bins : List UwAttrs} {c : UwDb} {o : UwOutline} (h : Written bins c o) : Ending bins c o := by
  induction h
  case new c hs _ _ _ =>
    refine ⟨?_, fun _ => rfl⟩
    rw [hs]
    exact ⟨rfl, by decide, .inl ⟨rfl, rfl⟩⟩
  case same hs _ _ _ _ he hi => exact ⟨hs ▸ hi.shown, fun hok => hi.bins (he hok)⟩
  case refused he _ hi       => exact ⟨hi.shown, fun hok => absurd hok he⟩
  case settle hi             => exact hi.settle
  case attrs hi              => exact hi.attrs _
  case own hi                => exact hi.modifyHead fun _ => rfl
  case stage hi              => exact hi.modifyHead fun _ => rfl
  case opened hw _ _ _ _ ht _ _ hn _ hi => exact hi.push hw.sane.nonempty ht hn
  case virtual hw _ _ _ _ _ hi          => exact ⟨hi.shown.virtual (Ending.tags_ne hw.sane.nonempty), hi.bins⟩
  case kind c _ hw _ kind _ _ _ _ hi    =>
    have hp := hi.push hw.sane.nonempty (of_tag kind.tag 0) (by cases kind <;> decide)
    exact ⟨hp.shown, hp.bins⟩
  case inst hw _ _ _ file line hi       =>
    have hp := hi.push hw.sane.nonempty (e := .withId file line 1 (.of .instanceCoverages ucisInstance)) rfl (by decide)
    exact ⟨hp.shown, hp.bins⟩
  case tables hw _ _ hs hi   =>
    have ht := (hi.adds hw.sane.nonempty (collect_tables hs)).modifyHead settle_tag
    exact ⟨ht.shown, ht.bins⟩
  case index hw _ hi         => exact (hi.adds hw.sane.nonempty rfl).modifyHead settle_tag
  case emit hw _ shape _ hi  =>
    have ha := hi.add hw.sane.nonempty [shape]
    rwa [collectAll, collectAll, List.append_nil] at ha
  case leave hw _ _ hi       => exact hi.leave hw.sane.nonempty

-- Everything that is open can be closed.
structure Closing (bins : List UwAttrs) (c : UwDb) (o : UwOutline) : Prop where
  ending : Ending bins c o
  placed : Placed c.stack

theorem Closing.leave {bins : List UwAttrs} {c : UwDb} {o : UwOutline} (h : Closing bins c o) (hne : c.stack ≠ []) :
    Closing bins c.settle.leave (c.settle.left (c.settled o)) where
  ending := h.ending.settle.leave (mt settle_stack_nil.mp hne)
  placed := by
    rw [settle_leave, leave_stack]
    obtain ⟨e, es, hs⟩ := List.exists_cons_of_ne_nil hne
    have hp := h.placed
    rw [hs] at hp ⊢
    exact hp.right

namespace Spec

variable {bins : List UwAttrs}

theorem closeTop (bins : List UwAttrs) {Q : UcisWriterStatus → UwDb → UwOutline → Prop} :
    Spec accepts
      (fun c o => Closing bins c o ∧ c.stack ≠ [] ∧
        ∀ c' o', Closing bins c' o' → c'.stack.length + 1 = c.stack.length → Q .ok c' o') uwElEnd Q := by
  refine pre elEnd fun c o h => ⟨fun hn => absurd hn h.right.left, fun e he => ?_⟩
  obtain ⟨hc, hne, hq⟩ := h
  obtain ⟨es, hs⟩ := List.head?_eq_some_iff.mp he
  have hp := hc.placed
  rw [hs] at hp
  refine ⟨hp.left.expr, hc.placed.room, hq _ _ (hc.leave hne) ?_⟩
  rw [settle_leave, leave_stack, hs]
  rfl

theorem closeAll (fuel : Nat) :
    Spec accepts (fun c o => Closing bins c o ∧ c.stack.length ≤ fuel) (uwUnwindFrom fuel 0)
      (Fine fun c o => Closing bins c o ∧ c.stack = []) := by
  induction fuel
  case zero         => exact pre status fun c o h => fine_ok.mpr ⟨h.left, List.length_eq_zero_iff.mp (Nat.le_zero.mp h.right)⟩
  case succ fuel hi =>
    refine pre (read fun db => ite ((closeTop bins).tryBufOk hi) status) fun c o h db hdb => ?_
    have hl : db.stack.length = c.stack.length := by rw [← hdb, core_length]
    rw [hl]
    refine ⟨fun hpos => ⟨h.left, List.length_pos_iff.mp hpos, fun c' o' hc hn => fine_ok.mpr ⟨hc, ?_⟩⟩, fun hz => fine_ok.mpr ⟨h.left, ?_⟩⟩
    case refine_1 =>
      have hf := h.right
      omega
    case refine_2 => exact List.length_eq_zero_iff.mp (Nat.eq_zero_of_not_pos hz)

theorem closeRest : Spec accepts (Closing bins) (uwElUnwind 0) fun _ c o => Closing bins c o ∧ c.stack = [] := by
  refine post (pre (read fun db => closeAll db.stack.length) fun c o h db hdb => ⟨h, ?_⟩) fun _ _ _ h => h.right
  rw [← hdb, core_length]

-- The document without an instance gets one that stands for none.
theorem placeheld : Spec accepts (fun c o => Closing bins c o ∧ c.stack ≠ []) uwPlaceholderInstance
    fun _ c o => Closing bins c o ∧ c.stack ≠ [] := by
  refine pre placeholder fun c o h => ?_
  obtain ⟨hc, hne⟩ := h
  have hset : c.settle.stack ≠ [] := mt settle_stack_nil.mp hne
  refine ⟨hc.placed.room, fun _ => ⟨⟨⟨hc.ending.shown, fun hok => ?_⟩, hc.placed⟩, hne⟩, fun _ attrs place => ?_⟩
  case refine_1 =>
    rw [UwDb.failed] at hok
    split at hok
    case isTrue    => cases hok
    case isFalse h => exact absurd hok h
  case refine_2 =>
    have hb : collectAll binShown [.elem .instanceCoverages attrs [leaf .id place]] = [] := rfl
    have ha := hc.ending.settle.adds hset hb
    obtain ⟨_, herr, _⟩ := forget_fields c.settle ucisInstance
    have hs := forget_stack ucisInstance c.settle
    refine ⟨⟨⟨hs ▸ ha.shown, fun hok => ha.bins (herr ▸ hok)⟩, hs ▸ ?_⟩, hs ▸ hset⟩
    exact hc.placed.modifyHead fun _ _ => fits_settle

end Spec

-- Once the output is finished

namespace UwBuf

variable {written : List UInt8} {b : UwBuf}

theorem finish_failed (h : b.status ≠ .ok) : b.finish.status = b.status := by
  have hf : b.flush.status = b.status := by
    rw [flush]
    dsimp only
    rw [if_pos h]
  rw [finish]
  dsimp only
  split
  case h_1 =>
    split
    case isTrue  => exact hf
    case isFalse =>
      rw [fail, if_neg (hf ▸ h)]
      exact hf
  case h_2 => exact hf

theorem Sound.handed (hb : Sound accepts written False b) (h : b.finish.status = .ok) : b.finish.calls.flatten = written := by
  have hd : b.finish.data = [] := by
    have hf := hb.flush.right
    rw [UwBuf.finish]
    dsimp only
    split
    case h_1 =>
      split
      case isTrue  => exact hf
      case isFalse =>
        rw [fail]
        split <;> exact hf
    case h_2 => exact hf
  have hw := (hb.finish.carries.whole h).left
  rwa [hd, List.append_nil] at hw

end UwBuf

-- Unless the output fails, one document was handed over, with the bins where this holds.
def Handed (bins : List UwAttrs) (P : Prop) (b : UwBuf) : Prop :=
  b.status = .ok → ∃ (root : Node UwTag UwAttr) (rest : List UInt8) (attrs : UwAttrs) (shapes : List UwShape),
    b.calls.flatten = root.render ++ rest ∧ Blank rest ∧ ¬root.isText ∧ root.Formed Legible Plain ∧
    root.shapes = [.elem .ucis attrs shapes] ∧ (P → collectAll binShown root.shapes = bins)

theorem Shows.handed {b : UwBuf} {d : UwDraft} (h : Shows accepts b [] d) (hs : Shown [] d.outline) {bins : List UwAttrs}
    {P : Prop} (hb : P → d.outline.collect binShown = bins) : Handed bins P b.finish := by
  intro hok
  have hf : d.frames = [] := h.drawn.aligned
  have hshown : d.shown = renderAll d.nodes := by rw [Draft.shown, hf, shownFrames, List.append_nil]
  obtain ⟨_, attrs, shapes, hroot⟩ := hs.root.resolve_left fun hr => by cases hr.left
  obtain ⟨root, ht, hshape, hformed, hnodes⟩ :=
    single_root (fun _ h => h) h.drawn.sound.nodes hroot (hshown ▸ h.begun)
  refine ⟨root, renderAll d.nodes.tail, attrs, shapes, ?_, ?_, ht, hformed, hshape, fun hp => ?_⟩
  case refine_1 =>
    rw [h.sound.handed hok, hshown]
    rcases hnodes with hn | ⟨s, hn⟩ <;> rw [hn] <;> rfl
  case refine_2 =>
    have ha := h.drawn.around
    rcases hnodes with hn | ⟨s, hn⟩
    case inl =>
      rw [hn]
      exact fun b hb => by cases hb
    case inr =>
      rw [hn, List.tail_cons, renderAll, renderAll, List.append_nil]
      exact ha s (by rw [hn]; exact .tail _ (.head _))
  case refine_3 =>
    have hbins := hb hp
    rw [Outline.collect] at hbins
    have hopens : d.outline.opens = [] := by simp [Draft.outline, hf]
    have hshapes : d.outline.shapes = root.shapes := hroot.trans hshape.symm
    rwa [hopens, hshapes, collectOpens, List.append_nil] at hbins

theorem Handed.imp {bins : List UwAttrs} {P P' : Prop} {b : UwBuf} (h : Handed bins P b) (hp : P' → P) : Handed bins P' b := by
  intro hok
  obtain ⟨root, rest, attrs, shapes, he, hr, ht, hf, hs, hb⟩ := h hok
  exact ⟨root, rest, attrs, shapes, he, hr, ht, hf, hs, fun h => hb (hp h)⟩

section

variable {bins : List UwAttrs}

-- What is handed over once everything is closed
theorem finished : Hoare.Triple (On accepts fun c o => Closing bins c o ∧ c.stack = []) (discard <| uwBuf (·.finish))
    fun _ db => Handed bins (db.err = .ok) db.buf := by
  intro db h
  change Handed bins (db.err = .ok) db.buf.finish
  intro hok
  have hdb : db.buf.status = .ok := by
    by_contra hf
    exact hf ((UwBuf.finish_failed hf).symm.trans hok)
  obtain ⟨d, hd, hc, hs⟩ := h hdb
  have hshown := hc.ending.shown
  rw [hs] at hd hshown
  exact hd.handed hshown hc.ending.bins hok

theorem rcHanded : Hoare.Triple (fun db => Handed bins (db.err = .ok) db.buf) uwRc
    fun rc db => (rc = 0 → db.buf.status = .ok) ∧ Handed bins (rc = 0) db.buf := by
  intro db h
  have hrc {p : Prop} (hp : p → db.err ≠ .ok ∨ db.buf.status ≠ .ok) : (Hoare.run uwRc db).fst = 0 → ¬p := by
    intro (hz : (if db.err ≠ .ok ∨ db.buf.status ≠ .ok then -1 else (0 : Int)) = 0) hp'
    rw [if_pos (hp hp')] at hz
    cases hz
  exact ⟨fun hz => not_not.mp (hrc Or.inr hz), h.imp fun hz => not_not.mp (hrc Or.inl hz)⟩

theorem failHanded {what : String} {detail : Option (List UInt8)} :
    Hoare.Triple (fun db => Handed bins (db.err = .ok) db.buf) (discard <| uwFail .errUnbalanced what detail)
      fun _ db => Handed bins (db.err = .ok) db.buf := by
  intro db h
  have hr : (Hoare.run (discard <| uwFail .errUnbalanced what detail) db).snd =
      if db.err = .ok then { db with err := .errUnbalanced, errctx := uwCtx (lit what) detail } else db := rfl
  rw [hr]
  split
  case isTrue  => exact h.imp fun he => by cases he
  case isFalse => exact h

theorem closes : Hoare.Triple (On accepts (Rests bins)) ucisClose
    fun rc db => (rc = 0 → db.buf.status = .ok) ∧ Handed bins (rc = 0) db.buf := by
  have hbody : Hoare.Triple (On accepts (Rests bins)) (discard uwBody) fun _ => On accepts fun c o => Closing bins c o ∧ c.stack ≠ [] :=
    Spec.discard <| Spec.post Spec.body fun _ c o h =>
      ⟨⟨h.right.left.written.ending, h.right.left.written.sane.placed⟩, h.right.left.written.sane.nonempty⟩
  have hplaceheld : Hoare.Triple _ (discard uwPlaceholderInstance) fun _ => On accepts fun c o => Closing bins c o ∧ c.stack ≠ [] :=
    Spec.discard Spec.placeheld
  have hrest : Hoare.Triple (On accepts fun c o => Closing bins c o ∧ c.stack ≠ []) (discard (uwElUnwind 0)) fun _ =>
      On accepts fun c o => Closing bins c o ∧ c.stack = [] :=
    Spec.discard <| Spec.pre Spec.closeRest fun _ _ h => h.left
  have hbreak : Hoare.Triple (On accepts fun c o => Closing bins c o ∧ c.stack = []) (discard (uwBufPutc '\n')) fun _ =>
      On accepts fun c o => Closing bins c o ∧ c.stack = [] :=
    Spec.discard <| Spec.pre (Spec.text (.putc '\n') (by decide : less ∉ ['\n'.toUInt8])) fun c o h => by
      refine ⟨fun e he => ?_, .inl fun b hb => .inr (List.mem_singleton.mp hb), h⟩
      rw [h.right] at he
      cases he
  refine Hoare.Triple.read fun s => ?_
  generalize (if s.stack.length > 1 then s.stack.head?.bind (·.tag) else none) = unbalanced
  dsimp only
  refine hbody.bind fun _ => Hoare.Triple.read fun s => Hoare.Triple.when hplaceheld <| hrest.bind fun _ =>
    Hoare.Triple.read fun s => Hoare.Triple.when hbreak <| finished.bind fun _ => ?_
  cases unbalanced
  case none     => exact rcHanded
  case some tag => exact failHanded.bind fun _ => rcHanded

end

-- The database as it is made, and after any calls

theorem begun (write : Accepts UInt8) (close : Option Bool) (now : List UInt8) :
    On write (Rests []) (uwDbNew write close now) := by
  intro hok
  have hdb : uwDbNew write close now =
      { buf         := { UwBuf.init uwBufsz (some write) close with data := lit "<UCIS" }
        stack       := [.of .ucis 0]
        writtenTime := some now
        writtenBy   := some (lit "covsight ucis_writer") } := by
    rfl
  rw [hdb] at hok ⊢
  have hm : Draws [] (⟨[], []⟩ : UwDraft) := ⟨⟨trivial, by simp, by simp, by simp⟩, rfl, by simp, fun s hs => by cases hs⟩
  have hs : UwBuf.Sound write _ False _ := (UwBuf.init_sound write (by decide : 0 < uwBufsz) close).writeBytes (lit "<UCIS")
  have hstart : Draws _ ((⟨[], []⟩ : UwDraft).start .ucis) :=
    Draws.start (c := { buf := .init 0 none none }) (e := .of .ucis 0) hm (fun e he => by cases he) rfl rfl
  have hshown : ((⟨[], []⟩ : UwDraft).start .ucis).shown = lit "<UCIS" := Draft.shown_start _ _
  exact ⟨(⟨[], []⟩ : UwDraft).start .ucis, ⟨hshown ▸ rfl, hshown ▸ hs, hstart⟩, .new rfl rfl rfl rfl, fun _ hi => absurd rfl hi⟩

section

variable (write : Accepts UInt8) (close : Option Bool) (now : List UInt8) (calls : List UwApiCall)

theorem run_rests : On write (Rests (calls.flatMap UwApiCall.bins)) (uwRun write close now calls) := by
  rw [List.flatMap_eq_foldl]
  exact Hoare.Triple.runAll (I := fun bins => On write (Rests bins)) (fun bins c => Leaves.call c bins) calls (begun write close now)

theorem closed_handed : ((uwClosed write close now calls).fst = 0 → (uwClosed write close now calls).snd.buf.status = .ok) ∧
    Handed (calls.flatMap UwApiCall.bins) ((uwClosed write close now calls).fst = 0) (uwClosed write close now calls).snd.buf :=
  closes _ (run_rests write close now calls)

end

-- What is read as one element that only line breaks follow
def Reads (s : List UInt8) (root : Node UwTag UwAttr) : Prop :=
  ∃ rest, Markup.read s = some (root, rest) ∧ Blank rest

theorem reads_render {root : Node UwTag UwAttr} (ht : ¬root.isText) (hf : root.Formed Legible Plain) {rest : List UInt8}
    (hr : Blank rest) : Reads (root.render ++ rest) root :=
  ⟨rest, read_render (fun _ => Legible.quote) (fun _ h => h) ht hf rest, hr⟩

-- Where nothing was refused, it has the bins of the calls in their order.
theorem closed_bins (write : Accepts UInt8) (close : Option Bool) (now : List UInt8) (calls : List UwApiCall)
    (h : (uwClosed write close now calls).fst = 0) :
    ∃ root, Reads (uwClosed write close now calls).snd.buf.calls.flatten root ∧
      collectAll binShown root.shapes = calls.flatMap UwApiCall.bins := by
  obtain ⟨hok, hh⟩ := closed_handed write close now calls
  obtain ⟨root, rest, _, _, he, hr, ht, hf, _, hb⟩ := hh (hok h)
  exact ⟨root, he ▸ reads_render ht hf hr, hb h⟩

def oneStatement : List UwApiCall := [
  .instance (some { name := none, duName := none, src := ⟨none, 0⟩ }),
  .statement (some { name := none, count := 3, src := ⟨none, 2⟩, weight := 0, excluded := false }),
  .writeStreamScope
]

theorem closed_bins_statement :
    ∃ root, Reads (uwClosed (fun _ => true) none [] oneStatement).snd.buf.calls.flatten root ∧
      collectAll binShown root.shapes = oneStatement.flatMap UwApiCall.bins :=
  closed_bins (fun _ => true) none [] oneStatement (by decide +kernel)
