import Covsight.UcisWriter.Buf
import Covsight.UcisXml.Key
import Covsight.UcisXml.Util

-- The staging buffer of the C++ writer, and the spool that is replayed into one.

-- `buf` is the first `len` bytes, and `calls` what was handed to the sink.
structure Out where
  sink    : Option (Accepts UInt8)
  buf     : List UInt8
  cap     : Nat
  failed  : Bool
  written : Nat
  calls   : List (List UInt8)

namespace Out

-- A buffer that memory was found for.
def opened (sink : Option (Accepts UInt8)) (bufsz : Nat) : Out where
  sink    := sink
  buf     := []
  cap     := bufsz
  failed  := false
  written := 0
  calls   := []

-- A call of the sink, where there is one.
def call (o : Out) (s : List UInt8) : Out × Bool :=
  match o.sink with
  | none         => ({ o with failed := true }, false)
  | some accepts =>
    let o := { o with calls := o.calls ++ [s] }
    if accepts o.calls then ({ o with written := o.written + s.length }, true) else ({ o with failed := true }, false)

def flush (o : Out) : Out × Bool :=
  if o.failed then
    (o, false)
  else if o.buf.length = 0 then
    (o, true)
  else
    let (o, done) := o.call o.buf
    if done then ({ o with buf := [] }, true) else (o, false)

def need (o : Out) (n : Nat) : Out × Bool :=
  if o.failed then
    (o, false)
  else if n ≤ o.cap - o.buf.length then
    (o, true)
  else
    let (o, done) := o.flush
    if done then (o, decide (n ≤ o.cap - o.buf.length)) else (o, false)

def rawPut (o : Out) (c : UInt8) : Out :=
  { o with buf := o.buf ++ [c] }

def put (o : Out) (c : UInt8) : Out :=
  if o.buf.length = o.cap then
    let (o, done) := o.flush
    if done then o.rawPut c else o
  else
    o.rawPut c

def write (o : Out) (s : List UInt8) : Out :=
  if o.failed ∨ s.length = 0 then
    o
  else if o.cap ≤ s.length then
    let (o, done) := o.flush
    if done then (o.call s).fst else o
  else if o.cap - o.buf.length < s.length then
    let (o, done) := o.flush
    if done then { o with buf := o.buf ++ s } else o
  else
    { o with buf := o.buf ++ s }

-- `writeUInt`, for the digits in the order in which they are put.
def writeDigits (o : Out) (digits : List UInt8) : Out :=
  let (o, done) := o.need digits.length
  if done then digits.foldl rawPut o else o

inductive Op
  | write (s : List UInt8)
  | put (c : UInt8)
  | number (v : UInt64)
  | flush

def Op.written : Op → List UInt8
  | write s  => s
  | put c    => [c]
  | number v => writeUInt v.toNat
  | flush    => []

def apply (o : Out) : Op → Out
  | .write s  => o.write s
  | .put c    => o.put c
  | .number v => o.writeDigits (writeUInt v.toNat)
  | .flush    => o.flush.fst

-- `need` can make room for a number only where the whole buffer has it.
def Op.Fits (cap : Nat) : Op → Prop
  | number v => (writeUInt v.toNat).length ≤ cap
  | _        => True

structure Sound (accepts : Accepts UInt8) (text : List UInt8) (cap : Nat) (o : Out) : Prop where
  carries : Carries accepts text o.calls o.buf (o.failed = false)
  room    : o.buf.length ≤ cap
  cap     : o.cap = cap
  sink    : o.sink = some accepts
  failure : o.failed = true → SinkRefused accepts o.calls

variable {accepts : Accepts UInt8} {text : List UInt8} {cap : Nat} {o : Out}

theorem opened_sound (accepts : Accepts UInt8) (cap : Nat) : Sound accepts [] cap (opened (some accepts) cap) where
  carries   := .nil accepts
  room      := Nat.zero_le _
  cap       := rfl
  sink      := rfl
  failure h := nomatch h

theorem foldl_rawPut (digits : List UInt8) (o : Out) : digits.foldl rawPut o = { o with buf := o.buf ++ digits } := by
  induction digits generalizing o
  case nil              => rw [List.append_nil, List.foldl_nil]
  case cons c digits hi => rw [List.foldl_cons, hi, rawPut, List.append_assoc, List.singleton_append]

-- One call, with the bytes that are to be handed over next, and those that are held back from then on.
theorem Sound.call {s held : List UInt8} {text' : List UInt8} (ho : Sound accepts text cap o) (hf : o.failed = false)
    (hl : held.length ≤ cap) (hc : Carries accepts text' o.calls (s ++ held) (o.failed = false)) :
    Sound accepts text' cap { (o.call s).fst with buf := held } ∧ (o.call s).fst.buf = o.buf ∧
      (o.call s).fst.failed = !(o.call s).snd := by
  rw [Out.call, ho.sink]
  dsimp only
  split
  case isTrue ha =>
    refine ⟨⟨hc.send hf fun _ => ha, hl, ho.cap, rfl, fun h => ?_⟩, rfl, hf⟩
    cases hf.symm.trans h
  case isFalse ha =>
    have ha := Bool.eq_false_iff.mpr ha
    have hr : SinkRefused accepts (o.calls ++ [s]) := ⟨List.append_ne_nil_of_right_ne_nil _ nofun, ha⟩
    exact ⟨⟨hc.send hf nofun, hl, ho.cap, rfl, fun _ => hr⟩, rfl, rfl⟩

namespace Sound

-- A failed buffer may hold anything.
theorem refill {held : List UInt8} {text' : List UInt8} (ho : Sound accepts text cap o) (hl : held.length ≤ cap)
    (hc : Carries accepts text' o.calls held (o.failed = false)) : Sound accepts text' cap { o with buf := held } where
  carries := hc
  room    := hl
  cap     := ho.cap
  sink    := ho.sink
  failure := ho.failure

theorem drop (ho : Sound accepts text cap o) (hf : o.failed = true) (s : List UInt8) :
    Sound accepts (text ++ s) cap o :=
  ho.refill ho.room <| ho.carries.drop (by rw [hf]; nofun) s o.buf

theorem flush (ho : Sound accepts text cap o) :
    Sound accepts text cap o.flush.fst ∧ o.flush.fst.failed = !o.flush.snd ∧
      (o.flush.snd = true → o.flush.fst.buf = []) := by
  rw [Out.flush]
  split
  case isTrue hf => exact ⟨ho, hf, nofun⟩
  case isFalse hf =>
    have hf := Bool.eq_false_iff.mpr hf
    split
    case isTrue hn => exact ⟨ho, hf, fun _ => List.eq_nil_of_length_eq_zero hn⟩
    case isFalse =>
      have hc := ho.carries
      rw [← List.append_nil o.buf] at hc
      have h0 : ([] : List UInt8).length ≤ cap := Nat.zero_le cap
      have hs := ho.call hf h0 hc
      generalize o.call o.buf = r at hs
      have ⟨o', done⟩ := r
      have ⟨ho', hb, hd⟩ := hs
      dsimp only at ho' hb hd ⊢
      cases done
      case true  => exact ⟨ho', hd, fun _ => rfl⟩
      case false =>
        have hl : o'.buf.length ≤ cap := hb ▸ ho.room
        exact ⟨ho'.refill hl (ho'.carries.fail (hd ▸ nofun) _), hd, nofun⟩

-- Where the buffer has room after it was flushed, what was to be put is put, and else the buffer has failed.
theorem need (ho : Sound accepts text cap o) {n : Nat} (hn : n ≤ cap) :
    Sound accepts text cap (o.need n).fst ∧ (o.need n).fst.failed = !(o.need n).snd ∧
      ((o.need n).snd = true → (o.need n).fst.buf.length + n ≤ cap) := by
  rw [Out.need]
  split
  case isTrue hf => exact ⟨ho, hf, nofun⟩
  case isFalse hf =>
    have hf := Bool.eq_false_iff.mpr hf
    have hl := ho.room
    split
    case isTrue hr =>
      rw [ho.cap] at hr
      exact ⟨ho, hf, fun _ => by dsimp only; omega⟩
    case isFalse hr =>
      have hs := ho.flush
      generalize o.flush = r at hs
      have ⟨o', done⟩ := r
      have ⟨ho', hd, hb⟩ := hs
      dsimp only at ho' hb hd ⊢
      cases done
      case true =>
        have hn' : n ≤ o'.cap - o'.buf.length := by
          rw [hb rfl, ho'.cap, List.length_nil, Nat.sub_zero]
          exact hn
        rw [if_pos rfl, decide_eq_true hn']
        refine ⟨ho', hd, fun _ => ?_⟩
        rw [hb rfl, List.length_nil, Nat.zero_add]
        exact hn
      case false => exact ⟨ho', hd, nofun⟩

theorem put (ho : Sound accepts text cap o) (h0 : 0 < cap) (c : UInt8) : Sound accepts (text ++ [c]) cap (o.put c) := by
  have hp {o : Out} (ho : Sound accepts text cap o) (hl : o.buf.length < cap) :
      Sound accepts (text ++ [c]) cap (o.rawPut c) :=
    ho.refill (List.length_append.trans_le hl) (ho.carries.hold [c])
  rw [Out.put]
  split
  case isTrue =>
    have hs := ho.flush
    generalize o.flush = r at hs
    have ⟨o', done⟩ := r
    have ⟨ho', hd, hb⟩ := hs
    dsimp only at ho' hb hd ⊢
    cases done
    case true  => exact hp ho' (hb rfl ▸ h0)
    case false => exact ho'.drop hd [c]
  case isFalse hl =>
    rw [ho.cap] at hl
    exact hp ho (Nat.lt_of_le_of_ne ho.room hl)

-- A write goes into the buffer, into the buffer once that is flushed, or past it.
theorem write (ho : Sound accepts text cap o) (s : List UInt8) : Sound accepts (text ++ s) cap (o.write s) := by
  have hh {o : Out} (ho : Sound accepts text cap o) (hl : o.buf.length + s.length ≤ cap) :
      Sound accepts (text ++ s) cap { o with buf := o.buf ++ s } :=
    ho.refill (List.length_append.trans_le hl) (ho.carries.hold s)
  have hl := ho.room
  have hs := ho.flush
  rw [Out.write]
  generalize o.flush = r at hs
  have ⟨o', done⟩ := r
  have ⟨ho', hd, hb⟩ := hs
  dsimp only at ho' hb hd ⊢
  split
  case isTrue h =>
    rcases h with hf | hn
    · exact ho.drop hf s
    · cases List.eq_nil_of_length_eq_zero hn
      rwa [List.append_nil]
  case isFalse =>
    have hcap := ho.cap
    split
    case isTrue =>
      cases done
      case false => exact ho'.drop hd s
      case true =>
        have hc := ho'.carries.hold s
        rw [hb rfl, List.nil_append] at hc
        have hc : Carries accepts (text ++ s) o'.calls (s ++ []) (o'.failed = false) := by rwa [List.append_nil]
        have h0 : ([] : List UInt8).length ≤ cap := Nat.zero_le cap
        have hs := ho'.call hd h0 hc
        generalize o'.call s = r at hs
        have ⟨ho', hb', _⟩ := hs
        rw [hb rfl] at hb'
        exact ho'.refill (hb' ▸ Nat.zero_le _) (hb' ▸ ho'.carries)
    case isFalse hn =>
      split
      case isTrue =>
        cases done
        case false => exact ho'.drop hd s
        case true  => exact hh ho' (by rw [hb rfl, List.length_nil]; omega)
      case isFalse hr => exact hh ho (by omega)

theorem writeDigits (ho : Sound accepts text cap o) {digits : List UInt8} (hn : digits.length ≤ cap) :
    Sound accepts (text ++ digits) cap (o.writeDigits digits) := by
  have hs := ho.need hn
  rw [Out.writeDigits]
  generalize o.need digits.length = r at hs
  have ⟨o', done⟩ := r
  have ⟨ho', hd, hl⟩ := hs
  dsimp only at ho' hd hl ⊢
  cases done
  case false => exact ho'.drop hd digits
  case true  =>
    rw [if_pos rfl, foldl_rawPut]
    exact ho'.refill (List.length_append.trans_le (hl rfl)) (ho'.carries.hold digits)

theorem apply (ho : Sound accepts text cap o) (h0 : 0 < cap) {op : Op} (hf : op.Fits cap) :
    Sound accepts (text ++ op.written) cap (o.apply op) := by
  cases op
  case write s  => exact ho.write s
  case put c    => exact ho.put h0 c
  case number v => exact ho.writeDigits hf
  case flush    => exact (List.append_nil text).symm ▸ ho.flush.left

theorem run (ho : Sound accepts text cap o) (h0 : 0 < cap) {ops : List Op} (hf : ∀ op ∈ ops, op.Fits cap) :
    Sound accepts (text ++ ops.flatMap Op.written) cap (ops.foldl Out.apply o) := by
  induction ops generalizing text o
  case nil            => exact (List.append_nil text).symm ▸ ho
  case cons op ops hi =>
    have ⟨hop, hops⟩ := List.forall_mem_cons.mp hf
    rw [List.flatMap_cons, ← List.append_assoc]
    exact hi (ho.apply h0 hop) hops

end Sound

end Out

-- What the spool asks of its surroundings: whether it was built with files, what becomes of each file operation and
-- of asking for memory, and how many bytes a file gives back before it fails to.
structure Surroundings where
  stdio    : Bool
  tmpfile  : Bool
  fwrite   : (content s : List UInt8) → Bool
  realloc  : (size : Nat) → Bool
  rewind   : Bool
  readable : Option Nat

-- `mem` is the first `len` bytes of the memory, of which there are `memCap`.
structure Spool where
  mem       : List UInt8         := []
  memCap    : Nat                := 0
  threshold : Nat                := 8 * 1024 * 1024
  size      : Nat                := 0
  file      : Option (List UInt8) := none
  failed    : Bool               := false

namespace Spool

def spill (env : Surroundings) (sp : Spool) : Spool × Bool :=
  if ¬env.stdio then
    (sp, true)
  else if ¬env.tmpfile then
    ({ sp with failed := true }, false)
  else if sp.mem.length ≠ 0 ∧ ¬env.fwrite [] sp.mem then
    ({ sp with file := some [], failed := true }, false)
  else
    ({ sp with file := some sp.mem, mem := [], memCap := 0 }, true)

-- The number of bytes is cut to 32 bits, as is the sum. There is no result where bytes are copied past the memory.
def appendMem (env : Surroundings) (sp : Spool) (s : List UInt8) : Option (Spool × Bool) :=
  match Vec.reserve env.realloc sp.memCap ((sp.mem.length + s.length % 2 ^ 32) % 2 ^ 32) with
  | none        => some ({ sp with failed := true }, false)
  | some memCap =>
    if memCap < sp.mem.length + s.length then
      none
    else
      some ({ sp with mem := sp.mem ++ s, memCap := memCap, size := sp.size + s.length }, true)

def appendFile (env : Surroundings) (sp : Spool) (content s : List UInt8) : Spool × Bool :=
  if env.stdio ∧ env.fwrite content s then
    ({ sp with file := some (content ++ s), size := sp.size + s.length }, true)
  else
    ({ sp with failed := true }, false)

def append (env : Surroundings) (sp : Spool) (s : List UInt8) : Option (Spool × Bool) :=
  if sp.failed then
    some (sp, false)
  else if s.length = 0 then
    some (sp, true)
  else
    let (sp, spilled) :=
      if sp.file.isNone ∧ sp.threshold < sp.size + s.length then sp.spill env else (sp, true)
    if ¬spilled then
      some (sp, false)
    else
      match sp.file with
      | some content => some (sp.appendFile env content s)
      | none         => sp.appendMem env s

-- The loop over what `fread` gives, 64 KiB at a time.
def copy (o : Out) (content : List UInt8) : Out × Bool :=
  if content.length = 0 then
    (o, true)
  else
    let o := o.write (content.take (64 * 1024))
    if o.failed then (o, false) else copy o (content.drop (64 * 1024))
termination_by content.length

def replay (env : Surroundings) (sp : Spool) (o : Out) : Out × Bool :=
  if sp.failed then
    (o, false)
  else
    match sp.file with
    | none =>
      let o := o.write sp.mem
      (o, !o.failed)
    | some content =>
      if ¬env.stdio ∨ ¬env.rewind then
        (o, false)
      else
        match env.readable with
        | none   => copy o content
        | some k =>
          let (o, _) := copy o (content.take k)
          (o, false)

-- A sequence of writes, from a spool that was just made.
def appends (env : Surroundings) (sp : Spool) (writes : List (List UInt8)) : Option Spool :=
  writes.foldlM (fun sp s => (sp.append env s).map Prod.fst) sp

-- The copy of a write that is kept in memory goes past the memory, which the cut numbers made too small.
def Overruns (env : Surroundings) (sp : Spool) (s : List UInt8) : Prop :=
  sp.failed = false ∧ s.length ≠ 0 ∧ sp.file = none ∧ (sp.size + s.length ≤ sp.threshold ∨ env.stdio = false) ∧
    2 ^ 32 ≤ sp.mem.length + s.length ∧
      (Vec.reserve env.realloc sp.memCap ((sp.mem.length + s.length % 2 ^ 32) % 2 ^ 32)).isSome = true

def Contained (env : Surroundings) : Spool → (writes : List (List UInt8)) → Prop
  | _,  []          => True
  | sp, s :: writes =>
    ¬sp.Overruns env s ∧ ∀ sp' done, sp.append env s = some (sp', done) → Contained env sp' writes

structure Holds (text : List UInt8) (sp : Spool) : Prop where
  room    : sp.mem.length ≤ sp.memCap
  cap     : Vec.Capacity sp.memCap
  content : sp.failed = false → sp.file.getD sp.mem = text

variable {env : Surroundings} {sp sp' : Spool} {text text' s : List UInt8} {done : Bool}

theorem appendMem_eq_none_iff (hs : Holds text sp) :
    sp.appendMem env s = none ↔ 2 ^ 32 ≤ sp.mem.length + s.length ∧
      (Vec.reserve env.realloc sp.memCap ((sp.mem.length + s.length % 2 ^ 32) % 2 ^ 32)).isSome = true := by
  rw [appendMem]
  split
  case h_1 h =>
    rw [h]
    exact iff_of_false nofun fun hn => nomatch hn.right
  case h_2 c h =>
    have ⟨hl, hc⟩ := Vec.reserve_spec h hs.cap
    have hle := hc.le
    rw [h, Option.isSome_some, and_iff_left rfl]
    split
    case isTrue hm =>
      refine iff_of_true rfl ?_
      by_contra hn
      omega
    case isFalse hm => exact iff_of_false nofun (by omega)

theorem appendMem_holds (hs : Holds text sp) (hf : sp.file = none) (h : sp.appendMem env s = some (sp', done)) :
    Holds (text ++ s) sp' := by
  rw [appendMem] at h
  split at h
  case h_1 => cases h; exact ⟨hs.room, hs.cap, nofun⟩
  case h_2 c hc =>
    have ⟨_, hb⟩ := Vec.reserve_spec hc hs.cap
    split at h
    case isTrue => cases h
    case isFalse hl =>
      cases h
      refine ⟨?_, hb, fun ho => ?_⟩
      · rw [List.length_append]
        exact Nat.le_of_not_lt hl
      · have ht := hs.content ho
        rw [hf, Option.getD_none] at ht ⊢
        rw [ht]

-- A write that stays in memory.
def Kept (env : Surroundings) (sp : Spool) (s : List UInt8) : Prop :=
  sp.file = none ∧ (sp.size + s.length ≤ sp.threshold ∨ env.stdio = false)

theorem append_kept (hf : sp.failed = false) (hn : s.length ≠ 0) (hk : Kept env sp s) :
    sp.append env s = sp.appendMem env s := by
  have ⟨hfile, hk⟩ := hk
  have hs :
      (if sp.file.isNone ∧ sp.threshold < sp.size + s.length then sp.spill env else (sp, true)) = (sp, true) := by
    split
    case isTrue h =>
      have hio : ¬env.stdio = true := Bool.eq_false_iff.mp (hk.resolve_left (Nat.not_le.mpr h.right))
      rw [spill, if_pos hio]
    case isFalse => rfl
  rw [append, if_neg (Bool.eq_false_iff.mp hf), if_neg hn, hs]
  simp [hfile]

theorem appendFile_holds {content : List UInt8} (hs : Holds text sp) (hc : sp.file = some content) :
    Holds (text ++ s) (sp.appendFile env content s).fst := by
  rw [appendFile]
  split
  case isTrue =>
    refine ⟨hs.room, hs.cap, fun ho => ?_⟩
    rw [← hs.content ho, hc]
    rfl
  case isFalse => exact ⟨hs.room, hs.cap, nofun⟩

-- What was in memory is in the file, or the spool has failed.
theorem spill_holds (hs : Holds text sp) (hio : env.stdio = true) (hf : sp.failed = false) (hfile : sp.file = none) :
    Holds text (sp.spill env).fst ∧ ((sp.spill env).fst.failed = !(sp.spill env).snd) ∧
      ((sp.spill env).snd = true → ∃ content, (sp.spill env).fst.file = some content) := by
  rw [spill, if_neg (not_not.mpr hio)]
  split
  case isTrue => exact ⟨⟨hs.room, hs.cap, nofun⟩, rfl, nofun⟩
  case isFalse =>
    split
    case isTrue  => exact ⟨⟨hs.room, hs.cap, nofun⟩, rfl, nofun⟩
    case isFalse =>
      have ht := hs.content hf
      rw [hfile, Option.getD_none] at ht
      exact ⟨⟨Nat.zero_le 0, .inl rfl, fun _ => ht⟩, hf, fun _ => ⟨sp.mem, rfl⟩⟩

-- A write that goes to the file, which is made first where there is none.
theorem append_filed (hs : Holds text sp) (hf : sp.failed = false) (hn : s.length ≠ 0) (hk : ¬Kept env sp s) :
    ∃ r, sp.append env s = some r ∧ Holds (text ++ s) r.fst := by
  rw [append, if_neg (Bool.eq_false_iff.mp hf), if_neg hn]
  cases hfile : sp.file
  case some content =>
    have h : ¬((some content).isNone = true ∧ sp.threshold < sp.size + s.length) := fun h => nomatch h.left
    rw [if_neg h]
    simp only [not_true_eq_false, if_false, hfile]
    exact ⟨_, rfl, appendFile_holds hs hfile⟩
  case none =>
    have ⟨hl, hio⟩ := not_or.mp fun h => hk ⟨hfile, h⟩
    have hp := spill_holds hs (Bool.eq_true_of_not_eq_false hio) hf hfile
    rw [if_pos ⟨rfl, Nat.not_le.mp hl⟩]
    generalize sp.spill env = r at hp
    have ⟨sp', spilled⟩ := r
    have ⟨hs', hf', hc⟩ := hp
    dsimp only at hs' hf' hc ⊢
    cases spilled
    case false => exact ⟨_, rfl, hs'.room, hs'.cap, fun ho => nomatch ho.symm.trans hf'⟩
    case true  =>
      have ⟨content, hc⟩ := hc rfl
      simp only [not_true_eq_false, if_false, hc]
      exact ⟨_, rfl, appendFile_holds hs' hc⟩

theorem append_eq_none_iff (hs : Holds text sp) : sp.append env s = none ↔ sp.Overruns env s := by
  by_cases hf : sp.failed = true
  case pos =>
    rw [append, if_pos hf]
    exact iff_of_false nofun fun h => nomatch h.left.symm.trans hf
  case neg =>
    by_cases hn : s.length = 0
    case pos =>
      rw [append, if_neg hf, if_pos hn]
      exact iff_of_false nofun fun h => h.right.left hn
    case neg =>
      have hf := Bool.eq_false_iff.mpr hf
      by_cases hk : Kept env sp s
      case pos =>
        rw [append_kept hf hn hk, appendMem_eq_none_iff hs, Overruns, and_iff_right hf, and_iff_right hn,
          and_iff_right hk.left, and_iff_right hk.right]
      case neg =>
        have ⟨_, he, _⟩ := append_filed hs hf hn hk
        rw [he]
        exact iff_of_false nofun fun h => hk ⟨h.right.right.left, h.right.right.right.left⟩

theorem append_holds (hs : Holds text sp) (h : sp.append env s = some (sp', done)) : Holds (text ++ s) sp' := by
  by_cases hf : sp.failed = true
  case pos =>
    rw [append, if_pos hf] at h
    cases h
    exact ⟨hs.room, hs.cap, fun ho => nomatch ho.symm.trans hf⟩
  case neg =>
    by_cases hn : s.length = 0
    case pos =>
      rw [append, if_neg hf, if_pos hn] at h
      cases h
      rwa [List.eq_nil_of_length_eq_zero hn, List.append_nil]
    case neg =>
      have hf := Bool.eq_false_iff.mpr hf
      by_cases hk : Kept env sp s
      case pos =>
        rw [append_kept hf hn hk] at h
        exact appendMem_holds hs hk.left h
      case neg =>
        have ⟨_, he, ht⟩ := append_filed hs hf hn hk
        cases h.symm.trans he
        exact ht

-- The run, which goes on as long as no write overruns the memory.
theorem appends_holds {writes : List (List UInt8)} (hs : Holds text sp) (hc : sp.Contained env writes) :
    ∃ sp', sp.appends env writes = some sp' ∧ Holds (text ++ writes.flatten) sp' := by
  induction writes generalizing text sp
  case nil              => exact ⟨sp, rfl, (List.append_nil text).symm ▸ hs⟩
  case cons s writes hi =>
    have ⟨ho, hc⟩ := hc
    have ⟨r, hr⟩ := Option.ne_none_iff_exists'.mp (mt (append_eq_none_iff hs).mp ho)
    have ⟨sp', h, ht⟩ := hi (append_holds hs hr) (hc r.fst r.snd hr)
    refine ⟨sp', ?_, ?_⟩
    · rw [appends, List.foldlM_cons, hr]
      exact h
    · rwa [List.flatten_cons, ← List.append_assoc]

variable {accepts : Accepts UInt8} {cap : Nat} {o : Out}

-- The chunks come to what is read, cut off after the one that failed.
theorem copy_sound (ho : o.Sound accepts text cap) (content : List UInt8) :
    ∃ t, t <+: content ∧ (copy o content).fst.Sound accepts (text ++ t) cap ∧
      ((copy o content).snd = true → t = content) ∧
      ((copy o content).snd = false → (copy o content).fst.failed = true) := by
  fun_induction copy o content generalizing text
  case case1 content hn =>
    rw [List.eq_nil_of_length_eq_zero hn]
    exact ⟨[], List.nil_prefix, (List.append_nil text).symm ▸ ho, fun _ => rfl, nofun⟩
  case case2 o content hn o' hf =>
    exact ⟨content.take (64 * 1024), List.take_prefix .., ho.write _, nofun, fun _ => hf⟩
  case case3 o content hn o' hf hi =>
    have ⟨t, hp, hs, ht, hd⟩ := hi (ho.write _)
    refine ⟨content.take (64 * 1024) ++ t, ?_, ?_, fun h => ?_, hd⟩
    · have ht := (List.prefix_append_right_inj (content.take (64 * 1024))).mpr hp
      rwa [List.take_append_drop] at ht
    · rwa [← List.append_assoc]
    · rw [ht h, List.take_append_drop]

-- Why the spool may give less than what was written.
def Fails (env : Surroundings) (sp : Spool) : Prop :=
  sp.failed = true ∨ sp.file ≠ none ∧ (env.stdio = false ∨ env.rewind = false ∨ env.readable ≠ none)

theorem replay_sound (hs : Holds text' sp) (ho : o.Sound accepts text cap) :
    ∃ t, t <+: text' ∧ (sp.replay env o).fst.Sound accepts (text ++ t) cap ∧
      ((sp.replay env o).snd = true → t = text') ∧
      ((sp.replay env o).snd = false → (sp.replay env o).fst.failed = true ∨ sp.Fails env) := by
  have hnone : o.Sound accepts (text ++ []) cap := (List.append_nil text).symm ▸ ho
  rw [replay]
  split
  case isTrue hf => exact ⟨[], List.nil_prefix, hnone, nofun, fun _ => .inr (.inl hf)⟩
  case isFalse hf =>
    have ht := hs.content (Bool.eq_false_iff.mpr hf)
    split
    case h_1 hfile =>
      rw [hfile, Option.getD_none] at ht
      refine ⟨sp.mem, ht ▸ List.prefix_rfl, ho.write sp.mem, fun _ => ht, fun h => .inl ?_⟩
      simpa using h
    case h_2 content hfile =>
      rw [hfile, Option.getD_some] at ht
      have hne : sp.file ≠ none := hfile ▸ nofun
      split
      case isTrue h =>
        have h := h.imp Bool.eq_false_iff.mpr Bool.eq_false_iff.mpr
        exact ⟨[], List.nil_prefix, hnone, nofun, fun _ => .inr (.inr ⟨hne, h.imp_right .inl⟩)⟩
      case isFalse =>
        split
        case h_1 =>
          have ⟨t, hp, hc, he, hd⟩ := copy_sound ho content
          exact ⟨t, ht ▸ hp, hc, fun h => (he h).trans ht, fun h => .inl (hd h)⟩
        case h_2 k hk =>
          have ⟨t, hp, hc, _, _⟩ := copy_sound ho (content.take k)
          have hr : env.readable ≠ none := hk ▸ nofun
          have hf : sp.Fails env := .inr ⟨hne, .inr (.inr hr)⟩
          exact ⟨t, ht ▸ hp.trans (List.take_prefix ..), hc, nofun, fun _ => .inr hf⟩

-- What comes to less than 2^32 bytes is contained.
theorem contained_of_lt {writes : List (List UInt8)} (hs : Holds text sp)
    (h : text.length + writes.flatten.length < 2 ^ 32) : sp.Contained env writes := by
  induction writes generalizing text sp
  case nil              => exact trivial
  case cons s writes hi =>
    rw [List.flatten_cons, List.length_append] at h
    refine ⟨fun ho => ?_, fun sp' done he => hi (append_holds hs he) ?_⟩
    · have ⟨hf, _, hfile, _, hl, _⟩ := ho
      have ht := hs.content hf
      rw [hfile, Option.getD_none] at ht
      rw [ht] at hl
      omega
    · rw [List.length_append]
      omega

end Spool

-- What each buffer hands to its sink, against all that was written. `whole` is about what is handed over once the
-- buffer is flushed.

structure UwBuf.Transparent (accepts : Accepts UInt8) (ops : List UwBuf.Op) (b : UwBuf) : Prop where
  carries : Carries accepts (ops.flatMap UwBuf.Op.written) b.calls b.data (b.status = .ok)
  failure : b.status ≠ .ok → SinkRefused accepts b.calls ∨ .finish ∈ ops
  flushed : b.flush.data = []

structure Out.Transparent (accepts : Accepts UInt8) (ops : List Out.Op) (o : Out) : Prop where
  carries : Carries accepts (ops.flatMap Out.Op.written) o.calls o.buf (o.failed = false)
  failure : o.failed = true → SinkRefused accepts o.calls
  flushed : o.flush.snd = true → o.flush.fst.buf = []

-- The spool is replayed into a new buffer, which is flushed then.
def Spool.replayed (env : Surroundings) (sp : Spool) (accepts : Accepts UInt8) (cap : Nat) : Out × Bool :=
  let (o, done)    := sp.replay env (.opened (some accepts) cap)
  let (o, flushed) := o.flush
  (o, done && flushed)

structure Spool.Transparent (env : Surroundings) (accepts : Accepts UInt8) (cap : Nat) (writes : List (List UInt8))
    (sp : Spool) : Prop where
  carries : Carries accepts writes.flatten (sp.replayed env accepts cap).fst.calls []
    ((sp.replayed env accepts cap).snd = true)
  failure : (sp.replayed env accepts cap).snd = false →
    SinkRefused accepts (sp.replayed env accepts cap).fst.calls ∨ sp.Fails env

theorem UwBuf.transparent (accepts : Accepts UInt8) {cap : Nat} (h : 0 < cap) (close : Option Bool)
    (ops : List UwBuf.Op) :
    UwBuf.Transparent accepts ops (ops.foldl UwBuf.apply (.init cap (some accepts) close)) := by
  have hs := (UwBuf.init_sound accepts h close).run ops
  rw [List.nil_append, false_or] at hs
  exact ⟨hs.carries, hs.failure, hs.flush.right⟩

theorem Out.transparent (accepts : Accepts UInt8) {cap : Nat} (h : 0 < cap) {ops : List Out.Op}
    (hf : ∀ op ∈ ops, op.Fits cap) :
    Out.Transparent accepts ops (ops.foldl Out.apply (.opened (some accepts) cap)) := by
  have hs := (Out.opened_sound accepts cap).run h hf
  exact ⟨hs.carries, hs.failure, hs.flush.right.right⟩

theorem Spool.transparent {env : Surroundings} (accepts : Accepts UInt8) (cap : Nat) {sp : Spool}
    {writes : List (List UInt8)} (hs : Spool.Holds writes.flatten sp) : sp.Transparent env accepts cap writes := by
  have hr := @Spool.replay_sound env sp [] writes.flatten accepts cap _ hs (Out.opened_sound accepts cap)
  have ⟨t, hp, ho, hd, hf⟩ := hr
  have ⟨ho', hl, hb⟩ := ho.flush
  have hc := ho'.carries
  rw [List.nil_append] at hc
  constructor
  case carries =>
    refine ⟨hc.cut.trans hp, hc.unbroken, fun h => ?_⟩
    dsimp only [Spool.replayed] at h
    have ⟨hdone, hflush⟩ := Bool.and_eq_true_iff.mp h
    have ⟨hw, ha⟩ := hc.whole (by rw [hl, hflush]; rfl)
    rw [hb hflush, hd hdone] at hw
    exact ⟨hw, ha⟩
  case failure =>
    intro h
    dsimp only [Spool.replayed] at h
    rcases Bool.and_eq_false_iff.mp h with hdone | hflush
    case inr => exact .inl (ho'.failure (by rw [hl, hflush]; rfl))
    case inl =>
      rcases hf hdone with hfail | hfail
      case inr => exact .inr hfail
      case inl =>
        have hflush : (sp.replay env (.opened (some accepts) cap)).fst.flush.snd = false := by
          rw [Out.flush, if_pos hfail]
        exact .inl (ho'.failure (by rw [hl, hflush]; rfl))

-- Surroundings in which nothing fails.
def Surroundings.sound : Surroundings where
  stdio    := true
  tmpfile  := true
  fwrite   := fun _ _ => true
  realloc  := fun _ => true
  rewind   := true
  readable := none
