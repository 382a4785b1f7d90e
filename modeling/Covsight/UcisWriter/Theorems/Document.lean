import Covsight.UcisWriter.Calls
import Covsight.UcisXml.Theorems.Text

-- What is written is a document with the open elements of the stack.

open Xml Markup

variable (accepts : Accepts UInt8)

-- Values are read back. No text begins a tag.

def Legible (s : List UInt8) : Prop :=
  ∃ t, unescape s = some t

def Plain (s : List UInt8) : Prop :=
  less ∉ s

-- Line breaks and their indents
def Blank (s : List UInt8) : Prop :=
  ∀ b ∈ s, b = space ∨ b = '\n'.toUInt8

theorem Blank.plain {s : List UInt8} (h : Blank s) : Plain s := by
  intro hm
  rcases h _ hm with h | h <;> exact absurd h (by decide)

theorem blank_append {s t : List UInt8} (hs : Blank s) (ht : Blank t) : Blank (s ++ t) :=
  fun b hb => (List.mem_append.mp hb).elim (hs b) (ht b)

theorem Legible.quote {s : List UInt8} (h : Legible s) : Markup.quote ∉ s := by
  obtain ⟨t, ht⟩ := h
  exact fun hm => (bare_of_unescape ht _ hm).right rfl

theorem Legible.plain {s : List UInt8} (h : Legible s) : Plain s := by
  obtain ⟨t, ht⟩ := h
  exact fun hm => (bare_of_unescape ht _ hm).left rfl

theorem legible_escape (s : List UInt8) (n : Nat) : Legible (uwTextEscape s n).out :=
  ⟨_, (scansChars_uwScan.escapeWith_exact trivial n).left⟩

theorem legible_digits {s : List UInt8} (h : ∀ b ∈ s, b ∈ lit "0123456789+-.e") : Legible s := by
  refine ⟨s, ?_⟩
  induction s
  case nil         => rfl
  case cons b s hi =>
    have hall : ∀ b ∈ lit "0123456789+-.e", isPlain b.toNat = true ∧ encode b.toNat = [b] := by decide +kernel
    obtain ⟨hp, he⟩ := hall b (h b (.head _))
    have hs := @unescape_char s _ hp
    rw [he, hi fun b hb => h b (.tail _ hb)] at hs
    exact hs

theorem mem_uwDigits {v : Nat} : ∀ b ∈ uwDigits v, b ∈ lit "0123456789+-.e" := by
  intro b hb
  have hd : ∀ d < 10, UInt8.ofNat (0x30 + d) ∈ lit "0123456789+-.e" := by decide +kernel
  rw [uwDigits] at hb
  split at hb
  case isTrue  => exact (by decide +kernel : ∀ b ∈ lit "0", b ∈ lit "0123456789+-.e") b hb
  case isFalse =>
    obtain ⟨d, hm, rfl⟩ := List.mem_map.mp hb
    exact hd d (Nat.digits_lt_base (by decide) (List.mem_reverse.mp hm))

theorem legible_uwDigits (v : Nat) : Legible (uwDigits v) :=
  legible_digits mem_uwDigits

theorem legible_uwInteger (v : Int) : Legible (uwInteger v) := by
  refine legible_digits fun b hb => ?_
  rw [uwInteger] at hb
  split at hb
  case isFalse => exact mem_uwDigits b hb
  case isTrue  =>
    rcases List.mem_append.mp hb with hb | hb
    case inl => exact (by decide +kernel : ∀ b ∈ lit "-", b ∈ lit "0123456789+-.e") b hb
    case inr => exact mem_uwDigits b hb

-- Buffers

namespace UwBuf

variable {accepts} {written s : List UInt8} {finished : Prop} {b : UwBuf}

theorem Sound.failed (hb : Sound accepts written finished b) (h : b.status ≠ .ok) (s : List UInt8) :
    Sound accepts (written ++ s) finished b :=
  ⟨hb.carries.drop h s b.data, hb.room, hb.storage, hb.sink, hb.failure⟩

theorem writeBytes_failed (h : b.status ≠ .ok) : b.writeBytes s = b :=
  if_pos h

theorem putc_failed (h : b.status ≠ .ok) (c : UInt8) : b.putc c = b :=
  if_pos h

-- What was written stays.
theorem out_copyRuns {fuel i run : Nat} (e : Escaped Nat) :
    ∃ rest, (Xml.copyRuns uwScan s fuel i run e).out = e.out ++ rest := by
  induction fuel generalizing i run e
  case zero         => exact ⟨_, rfl⟩
  case succ fuel hi =>
    rw [Xml.copyRuns]
    split
    case isFalse => exact ⟨_, rfl⟩
    case isTrue  =>
      cases uwScan (s.drop i)
      case keep length       => exact hi e
      case replace text note =>
        obtain ⟨rest, hr⟩ := @hi (i + 1) (i + 1) ⟨e.out ++ span s run i ++ text, note e.notes⟩
        exact ⟨span s run i ++ (text ++ rest), hr.trans (by simp)⟩

-- The text is that of the plain escaping, whatever the buffer does.
theorem Sound.copyRuns {fuel i run : Nat} {e : Escaped Nat} {nwarn : Nat}
    (hb : Sound accepts (written ++ e.out) finished b) :
    Sound accepts (written ++ (Xml.copyRuns uwScan s fuel i run e).out) finished
      (UwBuf.copyRuns s fuel i run b nwarn).fst := by
  induction fuel generalizing i run e b nwarn
  case zero         =>
    rw [Xml.copyRuns, UwBuf.copyRuns, Escaped.write, ← List.append_assoc]
    exact hb.writeBytes _
  case succ fuel hi =>
    rw [Xml.copyRuns, UwBuf.copyRuns]
    split
    case isFalse =>
      rw [Escaped.write, ← List.append_assoc]
      exact hb.writeBytes _
    case isTrue =>
      cases hs : uwScan (s.drop i)
      case keep length       => exact hi hb
      case replace text note =>
        have hspan := hb.writeBytes (span s run i)
        rw [List.append_assoc] at hspan
        have htext := hspan.writeBytes text
        rw [List.append_assoc] at htext
        obtain ⟨rest, hr⟩ := @out_copyRuns s fuel (i + 1) (i + 1)
          ⟨e.out ++ span s run i ++ text, note e.notes⟩
        have hr : _ = e.out ++ span s run i ++ text ++ rest := hr
        change Sound accepts (written ++
          (Xml.copyRuns uwScan s fuel (i + 1) (i + 1) ⟨e.out ++ span s run i ++ text, note e.notes⟩).out) finished _
        dsimp only
        split
        case isTrue hf  =>
          have hf := hspan.failed hf (text ++ rest)
          rw [hr]
          simpa using hf
        case isFalse =>
          split
          case isTrue hf =>
            have hf := htext.failed hf rest
            rw [hr]
            simpa using hf
          case isFalse   =>
            have htext : Sound accepts (written ++ (⟨e.out ++ span s run i ++ text, note e.notes⟩ : Escaped Nat).out)
                finished ((b.writeBytes (span s run i)).writeBytes text) := by simpa using htext
            exact hi htext

theorem Sound.textEscape (hb : Sound accepts written finished b) (s : List UInt8) (nwarn : Nat) :
    Sound accepts (written ++ (uwTextEscape s 0).out) finished (b.textEscape s nwarn).fst := by
  rw [UwBuf.textEscape]
  split
  case isTrue hf => exact hb.failed hf _
  case isFalse   =>
    have hb : Sound accepts (written ++ (⟨[], 0⟩ : Escaped Nat).out) finished b := by simpa using hb
    exact hb.copyRuns

theorem textEscape_failed (h : b.status ≠ .ok) (s : List UInt8) (nwarn : Nat) : b.textEscape s nwarn = (b, nwarn) :=
  if_pos h

end UwBuf

-- What only writes

-- What the writer decides by, without the buffer and what only the layout and the reports need

def UwElem.core (e : UwElem) : UwElem :=
  { e with haskids := false }

def UwDb.core (db : UwDb) : UwDb :=
  { db with
    buf := .init 0 none none, warnings := 0, pretty := false, errctx := [], stack := db.stack.map UwElem.core }

def UwDb.withStack (db : UwDb) (stack : List UwElem) : UwDb :=
  { db with stack }

-- Programs that write, and what they change besides

structure Writes (m : Uw UcisWriterStatus) (f : UwDb → UwDb) (s : List UInt8) : Prop where
  core   : ∀ db, (Hoare.run m db).snd.buf.status = .ok → (Hoare.run m db).snd.core = f db.core
  status : ∀ db, (Hoare.run m db).fst = (Hoare.run m db).snd.buf.status
  failed : ∀ db : UwDb, db.buf.status ≠ .ok → (Hoare.run m db).snd.buf.status ≠ .ok
  sound  : ∀ (db : UwDb) written, db.buf.Sound accepts written False →
    (Hoare.run m db).snd.buf.Sound accepts (written ++ s) False

namespace Writes

variable {accepts} {m m' : Uw UcisWriterStatus} {f f' : UwDb → UwDb} {s s' : List UInt8}

theorem nothing : Writes accepts uwStatus id [] where
  core _ _    := rfl
  status _    := rfl
  failed _ h  := h
  sound _ w h := (List.append_nil w).symm ▸ h

theorem buf {g : UwBuf → UwBuf} (hg : ∀ b, b.status ≠ .ok → g b = b)
    (hs : ∀ b written, UwBuf.Sound accepts written False b → UwBuf.Sound accepts (written ++ s) False (g b)) :
    Writes accepts (uwBuf g) id s where
  core _ _     := rfl
  status _     := rfl
  failed db h  := by
    have hb : (Hoare.run (uwBuf g) db).snd.buf = g db.buf := rfl
    rwa [hb, hg db.buf h]
  sound db w h := hs db.buf w h

theorem putc (c : Char) : Writes accepts (uwBufPutc c) id [c.toUInt8] :=
  buf (fun _ h => UwBuf.putc_failed h _) fun _ _ h => h.putc _

theorem write (s : List UInt8) : Writes accepts (uwBufWrite s) id s :=
  buf (fun _ h => UwBuf.writeBytes_failed h) fun _ _ h => h.writeBytes _

theorem escape (s : List UInt8) : Writes accepts (uwTextEscapeCstr s) id (uwTextEscape s 0).out where
  core _ _     := rfl
  status _     := rfl
  failed db h  := by
    have hb : (Hoare.run (uwTextEscapeCstr s) db).snd.buf = (db.buf.textEscape s db.warnings).fst := rfl
    rwa [hb, UwBuf.textEscape_failed h]
  sound db w h := h.textEscape s db.warnings

theorem run_tryBuf (db : UwDb) : Hoare.run (uwTryBuf m m') db =
    if (Hoare.run m db).fst = .ok then Hoare.run m' (Hoare.run m db).snd
    else ((Hoare.run m db).snd.buf.status, (Hoare.run m db).snd) := by
  have hr : Hoare.run (uwTryBuf m m') db = Hoare.run (if (Hoare.run m db).fst = .ok then m' else uwStatus)
    (Hoare.run m db).snd := rfl
  rw [hr]
  split
  case isTrue  => rfl
  case isFalse => rfl

theorem tryBuf (h : Writes accepts m f s) (h' : Writes accepts m' f' s') :
    Writes accepts (uwTryBuf m m') (f' ∘ f) (s ++ s') where
  core db hok := by
    rw [run_tryBuf, h.status db] at hok ⊢
    split
    case isTrue hs  =>
      rw [if_pos hs] at hok
      rw [h'.core _ hok, h.core db hs]
      rfl
    case isFalse hs =>
      rw [if_neg hs] at hok
      exact absurd hok hs
  status db := by
    rw [run_tryBuf]
    split
    case isTrue  => exact h'.status _
    case isFalse => rfl
  failed db hf := by
    have hf := h.failed db hf
    rw [run_tryBuf, h.status db, if_neg hf]
    exact hf
  sound db w hw := by
    have hw := h.sound db w hw
    rw [run_tryBuf, h.status db, ← List.append_assoc]
    split
    case isTrue     => exact h'.sound _ _ hw
    case isFalse hf => exact hw.failed hf s'

-- A write whose status nobody looks at
theorem seq (h : Writes accepts m f s) (h' : Writes accepts m' f' s') :
    Writes accepts (do discard m; m') (f' ∘ f) (s ++ s') where
  core db hok  := by
    have hok' : (Hoare.run m' (Hoare.run m db).snd).snd.buf.status = .ok := hok
    have hs : (Hoare.run m db).snd.buf.status = .ok := by
      by_contra hs
      exact h'.failed _ hs hok'
    exact (h'.core _ hok').trans (congrArg f' (h.core db hs))
  status db    := h'.status _
  failed db hf := h'.failed _ (h.failed db hf)
  sound db w hw := by
    rw [← List.append_assoc]
    exact h'.sound _ _ (h.sound db w hw)

-- A change before a write
theorem change {g : UwDb → UwDb} (hb : ∀ db, (g db).buf = db.buf) (hc : ∀ db, (g db).core = f db.core)
    (h' : Writes accepts m' f' s') : Writes accepts (do modify g; m') (f' ∘ f) s' where
  core db hok   := (h'.core (g db) hok).trans (congrArg f' (hc db))
  status db     := h'.status (g db)
  failed db hf  := h'.failed (g db) (hb db ▸ hf)
  sound db w hw := h'.sound (g db) w (hb db ▸ hw)

-- A change that is made in some cases
theorem when {b : Prop} [Decidable b] {g : UwDb → UwDb} (hb : ∀ db, (g db).buf = db.buf)
    (hc : ∀ db, (g db).core = f db.core) (h' : Writes accepts m' f' s') :
    Writes accepts (if b then do modify g; m' else m') (f' ∘ fun c => if b then f c else c) s' := by
  split
  case isTrue  => exact .change hb hc h'
  case isFalse => exact h'

theorem attrOf (attr : UwAttr) (h : Writes accepts m id s) :
    Writes accepts (uwTextAttrOf attr m) id (renderAttr (attr, s)) := by
  have he : renderAttr (attr, s) = [' '.toUInt8] ++ (attr.spelled ++ (lit "=\"" ++ (s ++ ['"'.toUInt8]))) := by
    simp [renderAttr, lit, ascii, Markup.space, Markup.equals, Markup.quote, spell]
  rw [he]
  exact (putc ' ').tryBuf <| (write _).tryBuf <| (write _).tryBuf <| h.tryBuf <| putc '"'

theorem digits (v : Nat) : Writes accepts (uwBufU64 v) id (uwDigits v) := by
  rw [uwBufU64, uwDigits]
  split
  case isTrue  => exact putc '0'
  case isFalse hv =>
    have hd : uwDigits v = (Nat.digits 10 v).reverse.map fun d => .ofNat (0x30 + d) := if_neg hv
    exact hd ▸ write _

theorem integer (v : Int) : Writes accepts (uwBufI64 v) id (uwInteger v) := by
  rw [uwBufI64, uwInteger]
  split
  case isTrue  => exact (putc '-').tryBuf (digits _)
  case isFalse => exact digits _

end Writes

abbrev UwDraft := Draft UwTag UwAttr
abbrev UwOutline := Outline UwTag UwAttr

-- The elements that have a tag are those that are open.
def Aligned : List UwElem → List (Frame UwTag UwAttr) → Prop
  | [],            frames => frames = []
  | e :: elements, frames =>
    match e.tag, frames with
    | none,     frames      => e.pending = false ∧ Aligned elements frames
    | some tag, f :: frames => f.tag = tag ∧ (e.pending = true ↔ f.body = none) ∧ Aligned elements frames
    | some _,   []          => False

section

variable {e e' : UwElem} {elements : List UwElem} {f : Frame UwTag UwAttr} {frames : List (Frame UwTag UwAttr)}

theorem Aligned.change (ht : e'.tag = e.tag) (hp : e'.pending = e.pending) (h : Aligned (e :: elements) frames) :
    Aligned (e' :: elements) frames := by
  unfold Aligned at h ⊢
  rwa [ht, hp]

-- Above what has ended a child can follow.
theorem Aligned.settled (hp : ∀ e ∈ elements, e.pending = false) (h : Aligned elements frames) :
    ∀ f ∈ frames.head?, f.body.isSome := by
  induction elements
  case nil                =>
    cases (h : frames = [])
    simp
  case cons e elements hi =>
    obtain ⟨he, hp⟩ := List.forall_mem_cons.mp hp
    unfold Aligned at h
    split at h
    case h_1           => exact hi hp h.right
    case h_2 f frames _ =>
      intro f' hf
      cases hf
      rw [he] at h
      exact Option.isSome_iff_ne_none.mpr fun hb => absurd (h.right.left.mpr hb) (by simp)
    case h_3           => cases h

-- What has a tag is shown.
theorem Aligned.tagged {tag : UwTag} (ht : e.tag = some tag) (h : Aligned (e :: elements) frames) :
    ∃ f frames', frames = f :: frames' ∧ f.tag = tag ∧ (e.pending = true ↔ f.body = none) ∧ Aligned elements frames' := by
  unfold Aligned at h
  rw [ht] at h
  cases frames
  case nil            => cases h
  case cons f frames' => exact ⟨f, frames', rfl, h⟩

-- What has not ended is an element.
theorem Aligned.pending (hp : e.pending = true) (h : Aligned (e :: elements) frames) :
    ∃ f frames', frames = f :: frames' ∧ e.tag = some f.tag ∧ f.body = none ∧ Aligned elements frames' := by
  cases ht : e.tag
  case none     =>
    unfold Aligned at h
    rw [ht] at h
    exact absurd h.left (by simp [hp])
  case some tag =>
    obtain ⟨f, frames', hf, htag, hb, h⟩ := h.tagged ht
    exact ⟨f, frames', hf, by rw [htag], hb.mp hp, h⟩

theorem Aligned.cons {tag : UwTag} (ht : e.tag = some tag) (hf : f.tag = tag) (hb : e.pending = true ↔ f.body = none)
    (h : Aligned elements frames) : Aligned (e :: elements) (f :: frames) := by
  unfold Aligned
  rw [ht]
  exact ⟨hf, hb, h⟩

-- An open element stays open where its body grows.
theorem Aligned.put (hb : f.body.isSome) (node : Node UwTag UwAttr) (h : Aligned elements (f :: frames)) :
    Aligned elements (f.put node :: frames) := by
  have hne : f.body ≠ none := Option.isSome_iff_ne_none.mp hb
  induction elements
  case nil                => cases h
  case cons e elements hi =>
    unfold Aligned at h ⊢
    cases ht : e.tag
    case none     =>
      rw [ht] at h
      exact ⟨h.left, hi h.right⟩
    case some tag =>
      rw [ht] at h
      exact ⟨h.left, iff_of_false (fun hp => hne (h.right.left.mp hp)) (by simp [Frame.put]), h.right.right⟩

end

structure Draws (stack : List UwElem) (d : UwDraft) : Prop where
  sound   : d.Sound Legible Plain
  aligned : Aligned stack d.frames
  inner   : ∀ e ∈ stack.tail, e.pending = false
  around  : d.Around Blank

-- The innermost element is still open to attributes, or it is not.

def UwDb.Pending (c : UwDb) : Prop :=
  ∃ e elements, c.stack = e :: elements ∧ e.pending = true

def UwDb.Settled (c : UwDb) : Prop :=
  ∀ e ∈ c.stack.head?, e.pending = false

-- The innermost element has a tag.
def UwDb.Tagged (c : UwDb) : Prop :=
  ∃ e ∈ c.stack.head?, e.tag.isSome

theorem plain_append {s t : List UInt8} (hs : Plain s) (ht : Plain t) : Plain (s ++ t) :=
  fun h => (List.mem_append.mp h).elim hs ht

namespace Draws

variable {stack : List UwElem} {e : UwElem} {elements : List UwElem} {d : UwDraft} {c : UwDb}

theorem pending (h : Draws c.stack d) (hp : c.Pending) : d.Pending := by
  obtain ⟨e, elements, hs, hp⟩ := hp
  have ha := h.aligned
  rw [hs] at ha
  obtain ⟨f, frames, hf, _, hb, _⟩ := ha.pending hp
  exact ⟨f, frames, hf, hb⟩

theorem tagged (h : Draws c.stack d) (hc : c.Tagged) : d.frames ≠ [] := by
  obtain ⟨e, he, ht⟩ := hc
  obtain ⟨es, hs⟩ := List.head?_eq_some_iff.mp he
  obtain ⟨tag, ht⟩ := Option.isSome_iff_exists.mp ht
  have ha := h.aligned
  rw [hs] at ha
  obtain ⟨f, frames, hf, _⟩ := ha.tagged ht
  exact hf ▸ List.cons_ne_nil f frames

theorem all_settled (h : Draws c.stack d) (hs : c.Settled) : ∀ e ∈ c.stack, e.pending = false := by
  intro e he
  have hi := h.inner
  rw [UwDb.Settled] at hs
  cases hstack : c.stack
  case nil                => simp [hstack] at he
  case cons e' elements =>
    rw [hstack] at he hs hi
    rcases List.mem_cons.mp he with rfl | he
    case inl => exact hs e rfl
    case inr => exact hi e he

theorem settled (h : Draws c.stack d) (hs : c.Settled) : d.Settled :=
  h.aligned.settled (h.all_settled hs)

theorem change {e' : UwElem} (ht : e'.tag = e.tag) (hp : e'.pending = e.pending) (h : Draws (e :: elements) d) :
    Draws (e' :: elements) d :=
  ⟨h.sound, h.aligned.change ht hp, h.inner, h.around⟩

-- Attributes and what is put in a body leave the stack as it is.
theorem attr (h : Draws c.stack d) (hp : c.Pending) {a : UwAttr × List UInt8} (ha : Legible a.snd) :
    Draws c.stack (d.attr a) := by
  refine ⟨h.sound.attr ha, ?_, h.inner, h.around.attr a⟩
  obtain ⟨e, elements, hs, hp⟩ := hp
  have haligned := h.aligned
  rw [hs] at haligned ⊢
  obtain ⟨f, frames, hf, ht, hb, hrest⟩ := haligned.pending hp
  rw [Draft.attr, hf]
  exact .cons ht rfl (iff_of_true hp hb) hrest

theorem attrs (h : Draws c.stack d) (hp : c.Pending) {as : List (UwAttr × List UInt8)} (ha : ∀ a ∈ as, Legible a.snd) :
    ∃ d' : UwDraft, d'.shown = d.shown ++ renderAttrs as ∧ Draws c.stack d' ∧ d'.outline = d.outline.attrs as := by
  induction as generalizing d
  case nil            => exact ⟨d, by simp [renderAttrs], h, by simp⟩
  case cons a as hi =>
    obtain ⟨d', hw, hm, ho⟩ := hi (h.attr hp (ha a (.head _))) fun a hm => ha a (.tail _ hm)
    refine ⟨d', ?_, hm, ?_⟩
    case refine_1 => rw [hw, Draft.shown_attr (h.pending hp)]; simp [renderAttrs]
    case refine_2 => rw [ho, Draft.outline_attr]; simp

theorem put (h : Draws c.stack d) (hs : c.Settled) {node : Node UwTag UwAttr}
    (ht : ∀ s, node = .text s → Plain s ∧ (Blank s ∨ c.Tagged)) (hn : ¬node.isText → node.Formed Legible Plain) :
    Draws c.stack (d.put node) := by
  refine ⟨h.sound.put (fun _ _ => plain_append) (fun s he => (ht s he).left) hn, ?_, h.inner,
    h.around.put (fun _ _ => blank_append) fun s he hf => (ht s he).right.resolve_right fun hc => ?_⟩
  case refine_2 => exact h.tagged hc hf
  have ha := h.aligned
  have hset := h.settled hs
  rw [Draft.put]
  split
  case h_1 hf          => exact hf ▸ ha
  case h_2 f frames hf =>
    rw [hf] at ha
    exact ha.put (hset f (by rw [hf]; rfl)) _

-- A start tag ends.
theorem settle (hp : e.pending = true) (h : Draws (e :: elements) d) :
    Draws ({ e with pending := false } :: elements) d.settle := by
  refine ⟨h.sound.settle, ?_, h.inner, h.around.settle⟩
  obtain ⟨f, frames, hf, ht, hb, hrest⟩ := h.aligned.pending hp
  rw [Draft.settle, hf]
  exact .cons ht rfl (by simp) hrest

theorem start (h : Draws c.stack d) (hs : c.Settled) {tag : UwTag} (ht : e.tag = some tag) (hp : e.pending = true) :
    Draws (e :: c.stack) (d.start tag) :=
  ⟨h.sound.start (h.settled hs) tag, .cons ht rfl (iff_of_true hp rfl) h.aligned, h.all_settled hs, h.around⟩

theorem virtual (h : Draws c.stack d) (hs : c.Settled) (ht : e.tag = none) (hp : e.pending = false) :
    Draws (e :: c.stack) d := by
  refine ⟨h.sound, ?_, h.all_settled hs, h.around⟩
  unfold Aligned
  rw [ht]
  exact ⟨hp, h.aligned⟩

theorem leave (h : Draws (e :: elements) d) (ht : e.tag = none) : Draws elements d := by
  have ha := h.aligned
  unfold Aligned at ha
  rw [ht] at ha
  exact ⟨h.sound, ha.right, fun e he => h.inner e (List.mem_of_mem_tail he), h.around⟩

theorem close (h : Draws (e :: elements) d) {tag : UwTag} (ht : e.tag = some tag) : Draws elements d.close := by
  obtain ⟨f, frames, hf, _, _, hrest⟩ := h.aligned.tagged ht
  refine ⟨h.sound.close fun _ _ => plain_append, ?_, fun e he => h.inner e (List.mem_of_mem_tail he),
    h.around.close fun _ _ => blank_append⟩
  have hset := hrest.settled h.inner
  rw [Draft.close, hf]
  dsimp only
  rw [Draft.put]
  split
  case h_1 hfs           =>
    cases (hfs : frames = [])
    exact hrest
  case h_2 g frames' hfs =>
    cases (hfs : frames = g :: frames')
    exact hrest.put (hset g rfl) _

end Draws

-- What was written is a document that has begun.
structure Shows (b : UwBuf) (stack : List UwElem) (d : UwDraft) : Prop where
  begun : d.shown.head? = some less
  sound : b.Sound accepts d.shown False
  drawn : Draws stack d

-- As long as nothing fails in the output, what is written shows a document of which this holds.
def On (P : UwDb → UwOutline → Prop) (db : UwDb) : Prop :=
  db.buf.status = .ok → ∃ d : UwDraft, Shows accepts db.buf db.core.stack d ∧ P db.core d.outline

theorem On.imp {accepts : Accepts UInt8} {P Q : UwDb → UwOutline → Prop} {db : UwDb} (h : On accepts P db)
    (hq : ∀ o, P db.core o → Q db.core o) : On accepts Q db := by
  intro hok
  obtain ⟨d, hd, hp⟩ := h hok
  exact ⟨d, hd, hq _ hp⟩

def Spec {α : Type} (P : UwDb → UwOutline → Prop) (m : Uw α) (Q : α → UwDb → UwOutline → Prop) : Prop :=
  Hoare.Triple (On accepts P) m fun a => On accepts (Q a)

-- After a program that cannot go wrong unless the output does
def Fine (Q : UwDb → UwOutline → Prop) (rc : UcisWriterStatus) (c : UwDb) (o : UwOutline) : Prop :=
  rc = .ok ∧ Q c o

@[simp]
theorem fine_ok {Q : UwDb → UwOutline → Prop} {c : UwDb} {o : UwOutline} : Fine Q .ok c o ↔ Q c o :=
  ⟨And.right, fun h => ⟨rfl, h⟩⟩

def UwDb.failed (c : UwDb) (status : UcisWriterStatus) : UwDb :=
  { c with err := if c.err = .ok then status else c.err }

namespace Spec

variable {accepts} {α β : Type} {P P' Q₀ : UwDb → UwOutline → Prop} {m : Uw α} {Q Q' : α → UwDb → UwOutline → Prop}
  {R : β → UwDb → UwOutline → Prop}

theorem pre (h : Spec accepts P m Q) (hp : ∀ c o, P' c o → P c o) : Spec accepts P' m Q :=
  Hoare.Triple.pre h fun _ hs => hs.imp fun _ => hp _ _

theorem post (h : Spec accepts P m Q) (hq : ∀ a c o, Q a c o → Q' a c o) : Spec accepts P m Q' :=
  Hoare.Triple.post h fun a _ hs => hs.imp fun _ => hq a _ _

theorem bind {f : α → Uw β} (hm : Spec accepts P m Q) (hf : ∀ a, Spec accepts (Q a) (f a) R) :
    Spec accepts P (m >>= f) R :=
  Hoare.Triple.bind hm hf

theorem seq {rest : Uw β} (hm : Spec accepts P m fun _ => Q₀) (hr : Spec accepts Q₀ rest R) :
    Spec accepts P (m >>= fun _ => rest) R :=
  hm.bind fun _ => hr

theorem done (a : α) : Spec accepts (Q a) (return a) Q :=
  Hoare.Triple.pure fun _ h => h

theorem discard {Q : PUnit → UwDb → UwOutline → Prop} (hm : Spec accepts P m fun _ => Q ⟨⟩) :
    Spec accepts P (discard m) Q :=
  hm

theorem ite {c : Prop} [Decidable c] {m' : Uw α} (hm : Spec accepts P m Q) (hm' : Spec accepts P' m' Q) :
    Spec accepts (fun db o => (c → P db o) ∧ (¬c → P' db o)) (if c then m else m') Q :=
  Hoare.Triple.ite (fun hc => hm.pre fun _ _ h => h.left hc) fun hc => hm'.pre fun _ _ h => h.right hc

-- What is done in some cases before the rest
theorem when {b : Prop} [Decidable b] {n : Uw PUnit} (hn : Spec accepts P n fun _ => Q₀) (hm : Spec accepts Q₀ m Q) :
    Spec accepts (fun db o => (b → P db o) ∧ (¬b → Q₀ db o)) (if b then (n >>= fun _ => m) else m) Q :=
  ite (hn.seq hm) hm

-- What is read is known by what the writer decides by.
theorem read {W : UwDb → UwDb → UwOutline → Prop} {f : UwDb → Uw β} (h : ∀ db, Spec accepts (W db) (f db) R) :
    Spec accepts (fun c o => ∀ db : UwDb, db.core = c → W db c o) (get >>= f) R :=
  Hoare.Triple.get fun db => Hoare.Triple.pre (h db) fun s hs => by
    obtain ⟨rfl, hs⟩ := hs
    exact hs.imp fun _ hw => hw s rfl

theorem status {Q : UcisWriterStatus → UwDb → UwOutline → Prop} : Spec accepts (Q .ok) uwStatus Q := by
  intro db hs hok
  have hrc : (Hoare.run uwStatus db).fst = .ok := hok
  rw [hrc]
  exact hs hok

-- Where the output fails nothing is left to be shown.
theorem tryBuf {rest m : Uw UcisWriterStatus} {R : UcisWriterStatus → UwDb → UwOutline → Prop}
    {Q : UcisWriterStatus → UwDb → UwOutline → Prop} (hm : Spec accepts P m Q) (hr : Spec accepts (Q .ok) rest R)
    (hbad : ∀ rc c o, rc ≠ .ok → Q rc c o → R .ok c o) : Spec accepts P (uwTryBuf m rest) R := by
  refine Hoare.Triple.bind hm fun rc => ?_
  by_cases hrc : rc = .ok
  case pos =>
    rw [if_pos hrc]
    exact hrc ▸ hr
  case neg =>
    rw [if_neg hrc]
    exact (status (Q := R)).pre fun c o h => hbad rc c o hrc h

theorem tryBufElse {rest m : Uw UcisWriterStatus} {R : UcisWriterStatus → UwDb → UwOutline → Prop}
    (hm : Spec accepts P m fun rc c o => (rc = .ok → Q₀ c o) ∧ (rc ≠ .ok → R .ok c o)) (hr : Spec accepts Q₀ rest R) :
    Spec accepts P (uwTryBuf m rest) R :=
  hm.tryBuf (hr.pre fun _ _ h => h.left rfl) fun _ _ _ hrc h => h.right hrc

theorem try' {rest m : Uw UcisWriterStatus} {Q R : UcisWriterStatus → UwDb → UwOutline → Prop}
    (hm : Spec accepts P m Q) (hr : Spec accepts (Q .ok) rest R) (hbad : ∀ rc c o, rc ≠ .ok → Q rc c o → R rc c o) :
    Spec accepts P (uwTry m rest) R :=
  Hoare.Triple.andThen hm (fun _ hrc => hrc ▸ hr) fun rc _ hrc hs => hs.imp fun _ => hbad rc _ _ hrc

theorem tryBufOk {rest m : Uw UcisWriterStatus} {R : UcisWriterStatus → UwDb → UwOutline → Prop}
    (hm : Spec accepts P m (Fine Q₀)) (hr : Spec accepts Q₀ rest R) : Spec accepts P (uwTryBuf m rest) R :=
  hm.tryBuf (hr.pre fun _ _ => And.right) fun _ _ _ hrc h => absurd h.left hrc

theorem tryOk {rest m : Uw UcisWriterStatus} {R : UcisWriterStatus → UwDb → UwOutline → Prop}
    (hm : Spec accepts P m (Fine Q₀)) (hr : Spec accepts Q₀ rest R) : Spec accepts P (uwTry m rest) R :=
  hm.try' (hr.pre fun _ _ => And.right) fun _ _ _ hrc h => absurd h.left hrc

-- A change of what is neither the output nor the stack
theorem change {f g : UwDb → UwDb} (hb : ∀ db, (f db).buf = db.buf) (hc : ∀ db, (f db).core = g db.core)
    (hs : ∀ c, (g c).stack = c.stack) {Q : PUnit → UwDb → UwOutline → Prop} :
    Spec accepts (fun c o => Q ⟨⟩ (g c) o) (modify f) Q :=
  Hoare.Triple.modify fun db h hok => by
    rw [hb] at hok
    obtain ⟨d, hd, hq⟩ := h hok
    refine ⟨d, ⟨hd.begun, (hb db).symm ▸ hd.sound, ?_⟩, by rwa [hc]⟩
    rw [hc, hs]
    exact hd.drawn

theorem warn {Q : PUnit → UwDb → UwOutline → Prop} : Spec accepts (Q ⟨⟩) uwWarn Q :=
  Hoare.Triple.modify fun _ h => h

theorem top {Q : Option UwElem → UwDb → UwOutline → Prop} :
    Spec accepts (fun c o => ∀ top : Option UwElem, top.map UwElem.core = c.stack.head? → Q top c o) uwElTop Q :=
  (read fun db => (done (Q := Q) db.stack.head?)).pre fun c o h db hdb => h _ <| by
    subst hdb
    exact List.head?_map.symm

theorem onTop {P₀ : UwDb → UwOutline → Prop} {P₁ : UwElem → UwDb → UwOutline → Prop} {f : Option UwElem → Uw β}
    (h₀ : Spec accepts P₀ (f none) R) (h₁ : ∀ el, Spec accepts (P₁ el) (f (some el)) R) :
    Spec accepts
      (fun c o => (c.stack = [] → P₀ c o) ∧ ∀ el : UwElem, c.stack.head? = some el.core → P₁ el c o)
      (uwElTop >>= f) R := by
  have hf : ∀ el, Spec accepts (fun c o => el.elim (P₀ c o) fun el => P₁ el c o) (f el) R := by
    intro el
    cases el
    case none    => exact h₀
    case some el => exact h₁ el
  refine (top.bind hf).pre fun c o h el hel => ?_
  cases el
  case none    => exact h.left (List.head?_eq_none_iff.mp hel.symm)
  case some el => exact h.right el hel.symm

theorem fail {status : UcisWriterStatus} (hs : status ≠ .errIo ∧ status ≠ .errAlloc) {what : String}
    {detail : Option (List UInt8)} {Q : UcisWriterStatus → UwDb → UwOutline → Prop} :
    Spec accepts (fun c o => Q status (c.failed status) o) (uwFail status what detail) Q := by
  have hne : ¬(status = .errIo ∨ status = .errAlloc) := not_or.mpr hs
  intro db h
  have hr : Hoare.run (uwFail status what detail) db =
      (status, if db.err = .ok then { db with err := status, errctx := uwCtx (lit what) detail } else db) := by
    simp only [uwFail, hne, if_false]
    rfl
  rw [hr]
  dsimp only
  intro hok
  have hdb : (if db.err = .ok then { db with err := status, errctx := uwCtx (lit what) detail } else db).buf = db.buf ∧
      (if db.err = .ok then { db with err := status, errctx := uwCtx (lit what) detail } else db).core =
        db.core.failed status := by
    by_cases he : db.err = .ok
    case pos => simp [he, UwDb.failed, UwDb.core]
    case neg => simp [he, UwDb.failed, UwDb.core]
  rw [hdb.left] at hok ⊢
  rw [hdb.right]
  exact h hok

theorem copyBounded {cap : Nat} {src : Option (List UInt8)} {Q : List UInt8 → UwDb → UwOutline → Prop} :
    Spec accepts (fun c o => Q ((src.getD []).take (cap - 1)) c o) (uwCopyBounded cap src) Q := by
  cases src
  case none     =>
    have ht : ((none : Option (List UInt8)).getD []).take (cap - 1) = [] := List.take_nil
    rw [ht]
    exact done _
  case some src =>
    rw [uwCopyBounded]
    split
    case isTrue  => exact warn.seq (done _)
    case isFalse => exact done _

theorem core_modifyHead {f g : UwElem → UwElem} (hc : ∀ e, (f e).core = g e.core) (db : UwDb) :
    (db.withStack (db.stack.modifyHead f)).core = db.core.withStack (db.core.stack.modifyHead g) := by
  cases hs : db.stack
  case nil       => simp [UwDb.withStack, UwDb.core, hs]
  case cons e es => simp [UwDb.withStack, UwDb.core, hs, hc]

-- The innermost element is changed.
theorem setTop {f g : UwElem → UwElem} (hc : ∀ e, (f e).core = g e.core) (ht : ∀ e, (g e).tag = e.tag)
    (hp : ∀ e, (g e).pending = e.pending) {Q : PUnit → UwDb → UwOutline → Prop} :
    Spec accepts (fun c o => Q ⟨⟩ (c.withStack (c.stack.modifyHead g)) o) (uwSetTop f) Q :=
  Hoare.Triple.modify fun db h hok => by
    obtain ⟨d, hd, hq⟩ := h hok
    have hcore := core_modifyHead hc db
    refine ⟨d, ⟨hd.begun, hd.sound, ?_⟩, ?_⟩
    case refine_2 => exact hcore ▸ hq
    have hm := hd.drawn
    have hstack : (db.withStack (db.stack.modifyHead f)).core.stack = db.core.stack.modifyHead g :=
      congrArg UwDb.stack hcore
    change Draws (db.withStack (db.stack.modifyHead f)).core.stack d
    rw [hstack]
    cases hs : db.core.stack
    case nil       =>
      rw [hs] at hm
      exact hm
    case cons e es =>
      rw [hs] at hm
      exact hm.change (ht e) (hp e)

-- A write after which something is shown again
theorem writes {m : Uw UcisWriterStatus} {f : UwDb → UwDb} {s : List UInt8} (hm : Writes accepts m f s)
    {P : UwDb → UwOutline → Prop} {Q : UcisWriterStatus → UwDb → UwOutline → Prop}
    (h : ∀ (c : UwDb) (d : UwDraft), Draws c.stack d → P c d.outline →
      ∃ d' : UwDraft, d'.shown = d.shown ++ s ∧ Draws (f c).stack d' ∧ Q .ok (f c) d'.outline) :
    Spec accepts P m Q := by
  intro db hdb hok
  have hok' : db.buf.status = .ok := by
    by_contra hf
    exact hm.failed db hf hok
  obtain ⟨d, hd, hp⟩ := hdb hok'
  obtain ⟨d', hw', hd', hq⟩ := h db.core d hd.drawn hp
  have hcore := hm.core db hok
  have hrc : (Hoare.run m db).fst = .ok := (hm.status db).trans hok
  refine ⟨d', ⟨?_, hw' ▸ hm.sound db d.shown hd.sound, by rwa [hcore]⟩, by rwa [hcore, hrc]⟩
  rw [hw', List.head?_append, hd.begun]
  rfl

variable {m : Uw UcisWriterStatus} {s : List UInt8} {Q : UcisWriterStatus → UwDb → UwOutline → Prop}

theorem attr {attr : UwAttr} (hm : Writes accepts m id (renderAttr (attr, s))) (hs : Legible s) :
    Spec accepts (fun c o => c.Pending ∧ Q .ok c (o.attrs [(attr, s)])) m Q :=
  writes hm fun c d hd hp => ⟨d.attr (attr, s), Draft.shown_attr (hd.pending hp.left) _, hd.attr hp.left hs, by
    rw [Draft.outline_attr]
    exact hp.right⟩

theorem node (node : Node UwTag UwAttr) (hm : Writes accepts m id node.render) (ht : ∀ s, node = .text s → Plain s)
    (hn : ¬node.isText → node.Formed Legible Plain) :
    Spec accepts (fun c o => c.Settled ∧ (∀ s, node = .text s → Blank s ∨ c.Tagged) ∧ Q .ok c (o.add node.shapes)) m Q :=
  writes hm fun c d hd hp => ⟨d.put node, Draft.shown_put (hd.settled hp.left) node,
    hd.put hp.left (fun s he => ⟨ht s he, hp.right.left s he⟩) hn, by
      rw [Draft.outline_put]
      exact hp.right.right⟩

-- Only what is blank can stand outside of the elements.
theorem text (hm : Writes accepts m id s) (hs : Plain s) :
    Spec accepts (fun c o => c.Settled ∧ (Blank s ∨ c.Tagged) ∧ Q .ok c o) m Q := by
  have hn : Spec accepts _ m Q := node (.text s) hm (fun t ht => by cases ht; exact hs) fun h => absurd rfl h
  refine hn.pre fun c o h => ⟨h.left, fun t ht => by cases ht; exact h.right.left, ?_⟩
  rw [Node.shapes, Outline.add_nil]
  exact h.right.right

end Spec
