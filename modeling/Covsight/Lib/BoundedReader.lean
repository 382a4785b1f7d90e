import Mathlib.Algebra.Group.Int.Defs
import Mathlib.Algebra.Group.Nat.Defs
import Mathlib.Data.List.Basic
import Mathlib.Data.List.Infix
import Mathlib.Tactic.Common

-- Reading a buffer of bytes through an offset that every reading moves forward. Offsets are 64 bit
-- wide: the test that a length fits is made on a sum that may wrap around. The same reader can be
-- run on unbounded numbers, and what the difference between the two runs can be is decided by the
-- lengths it comes across.

-- An object in memory is smaller than half of the address space.
structure ByteBuffer where
  bytes : List UInt8
  small : bytes.length < 2 ^ 63

def ByteBuffer.size (b : ByteBuffer) : Nat :=
  b.bytes.length

inductive Outcome (α : Type)
  | done (a : α)
  | fail
  | overrun

-- A length that the buffer states for what comes next.
structure StatedLength where
  off    : Nat
  len    : UInt64
  copied : Bool

structure Cursor where
  off     : Nat := 0
  passed  : List Nat := []
  lengths : List StatedLength := []
  records : Nat := 0

-- The buffer, the requests for memory that are granted, and whether sums wrap around.
structure Reading where
  buffer : ByteBuffer
  malloc : UInt64 → Bool
  wraps  : Bool

def Decoder (α : Type) : Type :=
  Reading → Cursor → Outcome α × Cursor

namespace Decoder

variable {α β : Type}

def bind (d : Decoder α) (f : α → Decoder β) : Decoder β := fun r c =>
  match d r c with
  | (.done a,  c) => f a r c
  | (.fail,    c) => (.fail, c)
  | (.overrun, c) => (.overrun, c)

instance : Monad Decoder where
  pure a _ c := (.done a, c)
  bind := bind

def fail : Decoder α := fun _ c =>
  (.fail, c)

def check (b : Bool) : Decoder Unit := fun _ c =>
  (if b then .done () else .fail, c)

end Decoder

def Reading.add (r : Reading) (m n : Nat) : Nat :=
  if r.wraps then (m + n) % 2 ^ 64 else m + n

def Cursor.moveTo (c : Cursor) (off : Nat) : Cursor :=
  { c with off := off, passed := c.off :: c.passed }

def Cursor.noting (c : Cursor) (len : UInt64) (copied : Bool) : Cursor :=
  { c with lengths := ⟨c.off, len, copied⟩ :: c.lengths }

namespace Decoder

variable {α β : Type}

-- The next `n` bytes, without a look at the size.
def take (n : Nat) : Decoder (List UInt8) := fun r c =>
  if c.off + n ≤ r.buffer.size then
    (.done ((r.buffer.bytes.drop c.off).take n), c.moveTo (c.off + n))
  else
    (.overrun, c)

-- The next `n` bytes, if there are as many and `b` holds as well.
def bytesIf (b : Bool) (n : Nat) : Decoder (List UInt8) := fun r c =>
  if r.buffer.size < r.add c.off n ∨ ¬b then (.fail, c) else take n r c

def byteIf (b : Bool) : Decoder UInt8 := do
  return (← bytesIf b 1).headD 0

def byte : Decoder UInt8 :=
  byteIf true

def littleEndian (width : Nat) : Decoder UInt64 := do
  return (← bytesIf true width).foldr (fun b n => 256 * n + b.toUInt64) 0

-- Seven bits a byte, of at most ten bytes.
def varintFrom : (limit : Nat) → (shift value : UInt64) → Decoder UInt64
  | 0,         _,     _     => fail
  | limit + 1, shift, value => do
    let b ← byte
    let value := value ||| (b &&& 0x7F).toUInt64 <<< shift
    if b &&& 0x80 = 0 then return value else varintFrom limit (shift + 7) value

def varint : Decoder UInt64 :=
  varintFrom 10 0 0

-- A length is noted and compared with what is left.
def fits (copied : Bool) (len : UInt64) : Decoder Unit := fun r c =>
  (if r.buffer.size < r.add c.off len.toNat then .fail else .done (), c.noting len copied)

-- Memory for a copy and the zero byte that ends it.
def request (len : UInt64) : Decoder Unit := fun r c =>
  (if r.malloc (len + 1) then .done () else .fail, c)

def skip (len : UInt64) : Decoder Unit := fun r c =>
  (.done (), c.moveTo (r.add c.off len.toNat))

def copyOf (len : UInt64) : Decoder (List UInt8) := do
  fits true len
  request len
  take len.toNat

def passOver (len : UInt64) : Decoder Unit := do
  fits false len
  skip len

def copy : Decoder (List UInt8) := do
  copyOf (← varint)

def pass : Decoder Unit := do
  passOver (← varint)

-- A payload that something else makes sense of.
def whole (parse : List UInt8 → Option α) : Decoder α := fun r c =>
  ((parse r.buffer.bytes).elim .fail .done, c)

-- What follows a mark, if the mark and that many bytes are there.
def opening (mark : List UInt8) (more : Nat) : Decoder (Option (List UInt8)) := fun r c =>
  if r.buffer.size < c.off + (mark.length + more) ∨
      (r.buffer.bytes.drop c.off).take mark.length ≠ mark then
    (.done none, c)
  else
    (do return some ((← take (mark.length + more)).drop mark.length) : Decoder _) r c

def optional (b : Bool) (d : Decoder α) : Decoder (Option α) :=
  if b then some <$> d else pure none

-- What takes up a record is counted once it is read.
def record (d : Decoder α) : Decoder α := fun r c =>
  match d r c with
  | (.done a, c) => (.done a, { c with records := c.records + 1 })
  | result       => result

-- One record after the other, each with its number.
def recordsFrom (body : Nat → α → Decoder α) : (n i : Nat) → α → Decoder α
  | 0,     _, a => pure a
  | n + 1, i, a => do
    let a ← record (body i a)
    recordsFrom body n (i + 1) a

def records (n : UInt64) (a : α) (body : Nat → α → Decoder α) : Decoder α :=
  recordsFrom body n.toNat 0 a

end Decoder

namespace Reading

def exact (r : Reading) : Reading :=
  { r with wraps := false }

def wrapping (r : Reading) : Reading :=
  { r with wraps := true }

theorem add_exact (r : Reading) (m n : Nat) : r.exact.add m n = m + n :=
  rfl

theorem add_wrapping (r : Reading) (m n : Nat) : r.wrapping.add m n = (m + n) % 2 ^ 64 :=
  rfl

-- The end of what comes next lies outside the address space, and nothing else stands in the way.
def Harmful (r : Reading) (l : StatedLength) : Prop :=
  2 ^ 64 ≤ l.off + l.len.toNat ∧ (l.copied → r.malloc (l.len + 1))

def Harmless (r : Reading) (c : Cursor) : Prop :=
  ∀ l ∈ c.lengths, ¬r.Harmful l

end Reading

namespace Cursor

-- The offsets so far, the last first.
def offsets (c : Cursor) : List Nat :=
  c.off :: c.passed

def Ascending (c : Cursor) : Prop :=
  c.offsets.Pairwise (· ≥ ·)

structure Within (c : Cursor) (r : Reading) : Prop where
  le_size   : c.off ≤ r.buffer.size
  ascending : c.Ascending

-- What came before stays on record.
structure Extends (c' c : Cursor) : Prop where
  offsets : c.offsets <:+ c'.offsets
  lengths : c.lengths <:+ c'.lengths

namespace Extends

variable {c c₁ c₂ : Cursor}

theorem refl (c : Cursor) : c.Extends c :=
  ⟨List.suffix_rfl, List.suffix_rfl⟩

theorem trans (h₁ : c₁.Extends c) (h₂ : c₂.Extends c₁) : c₂.Extends c :=
  ⟨h₁.offsets.trans h₂.offsets, h₁.lengths.trans h₂.lengths⟩

theorem ascending (h : c₁.Extends c) (ha : c₁.Ascending) : c.Ascending :=
  ha.sublist h.offsets.sublist

theorem harmless {r : Reading} (h : c₁.Extends c) (hl : r.Harmless c₁) : r.Harmless c :=
  fun l hc => hl l (h.lengths.subset hc)

end Extends

theorem moveTo_extends (c : Cursor) (off : Nat) : (c.moveTo off).Extends c :=
  ⟨List.suffix_cons .., List.suffix_rfl⟩

theorem moveTo_ascending {c : Cursor} {off : Nat} (h : c.Ascending) (ho : c.off ≤ off) :
    (c.moveTo off).Ascending := by
  refine List.pairwise_cons.mpr ⟨fun o hm => ?_, h⟩
  cases hm
  case head => exact ho
  case tail hm => exact Nat.le_trans ((List.pairwise_cons.mp h).left o hm) ho

theorem noting_extends (c : Cursor) (len : UInt64) (copied : Bool) :
    (c.noting len copied).Extends c :=
  ⟨List.suffix_rfl, List.suffix_cons ..⟩

theorem not_ascending_moveTo {c : Cursor} {off : Nat} (h : off < c.off) :
    ¬(c.moveTo off).Ascending :=
  fun ha => Nat.not_le_of_lt h ((List.pairwise_cons.mp ha).left c.off (.head _))

end Cursor

namespace Outcome

variable {α : Type}

-- A byte outside the buffer was read, or an offset lies before an earlier one.
def Broken (result : Outcome α × Cursor) : Prop :=
  result.fst = overrun ∨ ¬result.snd.Ascending

end Outcome

namespace Decoder

variable {α β : Type} {r : Reading} {c : Cursor} {width : Nat}

-- Whatever the numbers are, a decoder only adds to what it has seen.
def Recording (d : Decoder α) : Prop :=
  ∀ r c, (d r c).snd.Extends c

-- What a decoder does at a cursor: on unbounded numbers it stays within the buffer and takes
-- `least` bytes and `width` for each record; with sums that wrap around it does the same, unless
-- it comes across a harmful length, and then it goes wrong.
structure Checked (width least : Nat) (d : Decoder α) (r : Reading) (c : Cursor) : Prop where
  no_overrun : (d r.exact c).fst ≠ .overrun
  within     : (d r.exact c).snd.Within r
  spends     : c.off + width * (d r.exact c).snd.records ≤ (d r.exact c).snd.off + width * c.records
  takes      : ∀ a, (d r.exact c).fst = .done a →
    c.off + least + width * (d r.exact c).snd.records ≤ (d r.exact c).snd.off + width * c.records
  agrees     : r.Harmless (d r.exact c).snd → d r.wrapping c = d r.exact c
  breaks     : r.Harmless c → ¬r.Harmless (d r.exact c).snd → Outcome.Broken (d r.wrapping c)

-- A decoder that is checked wherever it starts.
structure Careful (width least : Nat) (d : Decoder α) : Prop where
  recording : d.Recording
  checked   : ∀ r c, c.Within r → d.Checked width least r c

namespace Careful

variable {d : Decoder α} {f : α → Decoder β} {k l : Nat}

theorem of_le (h : d.Careful width k) (hl : l ≤ k) : d.Careful width l where
  recording := h.recording
  checked r c hc :=
    { h.checked r c hc with
      takes a ha := Nat.le_trans (by omega) ((h.checked r c hc).takes a ha) }

end Careful

section Bind

variable {d : Decoder α} {f : α → Decoder β} {a : α} {c' : Cursor} {k l : Nat}

theorem bind_of_done {e : Cursor} (h : d r c = (.done a, e)) : (d >>= f) r c = f a r e := by
  change Decoder.bind d f r c = _
  rw [Decoder.bind, h]

theorem bind_of_fail {e : Cursor} (h : d r c = (.fail, e)) : (d >>= f) r c = (.fail, e) := by
  change Decoder.bind d f r c = _
  rw [Decoder.bind, h]

theorem bind_of_overrun (h : d r c = (.overrun, c')) : (d >>= f) r c = (.overrun, c') := by
  change Decoder.bind d f r c = _
  rw [Decoder.bind, h]

theorem Recording.bind (hd : d.Recording) (hf : ∀ a, (f a).Recording) : (d >>= f).Recording := by
  intro r c
  have h := hd r c
  rcases hr : d r c with ⟨_ | _ | _, c'⟩ <;> rw [hr] at h
  case done a => exact bind_of_done hr ▸ h.trans (hf a r c')
  case fail => exact bind_of_fail hr ▸ h
  case overrun => exact bind_of_overrun hr ▸ h

theorem broken_bind (hf : ∀ a, (f a).Recording) (h : Outcome.Broken (d r c)) :
    Outcome.Broken ((d >>= f) r c) := by
  rcases hr : d r c with ⟨_ | _ | _, c'⟩ <;> rw [hr] at h
  case done a =>
    have ha : ¬c'.Ascending := h.resolve_left nofun
    exact .inr fun hn => ha <| (hf a r c').ascending <| bind_of_done (f := f) hr ▸ hn
  case fail =>
    rw [bind_of_fail hr]
    exact .inr <| h.resolve_left nofun
  case overrun => exact .inl <| by rw [bind_of_overrun hr]

theorem Checked.bind (hd : d.Checked width k r c) (hf : ∀ a, (f a).Careful width l) :
    (d >>= f).Checked width (k + l) r c := by
  have hb := broken_bind (fun a => (hf a).recording) (d := d) (r := r.wrapping) (c := c)
  rcases hr : d r.exact c with ⟨_ | _ | _, c'⟩
  case overrun => exact absurd (congrArg Prod.fst hr) hd.no_overrun
  case fail =>
    have he := bind_of_fail (f := f) hr
    have ⟨_, hw, hs, _, ha, hk⟩ := hd
    rw [hr] at hw hs ha hk
    constructor <;> rw [he]
    case no_overrun => nofun
    case within => exact hw
    case spends => exact hs
    case takes => nofun
    case agrees => exact fun h => bind_of_fail (ha h)
    case breaks => exact fun h hn => hb <| hk h hn
  case done a =>
    have he := bind_of_done (f := f) hr
    have ⟨_, hw, _, ht, ha, hk⟩ := hd
    rw [hr] at hw ht ha hk
    have hx := (hf a).recording r.exact c'
    have ⟨hfo, hfw, hfs, hft, hfa, hfk⟩ := (hf a).checked r c' hw
    have ht := ht a rfl
    constructor <;> rw [he]
    case no_overrun => exact hfo
    case within => exact hfw
    case spends => simp only at ht; omega
    case takes =>
      intro b hb
      have := hft b hb
      simp only at ht
      omega
    case agrees =>
      intro h
      rw [bind_of_done (ha (hx.harmless h))]
      exact hfa h
    case breaks =>
      intro h hn
      by_cases hc : r.Harmless c'
      case pos =>
        rw [bind_of_done (ha hc)]
        exact hfk hc hn
      case neg => exact hb <| hk h hc

theorem Careful.bind (hd : d.Careful width k) (hf : ∀ a, (f a).Careful width l) :
    (d >>= f).Careful width (k + l) where
  recording   := hd.recording.bind fun a => (hf a).recording
  checked r c hc := (hd.checked r c hc).bind hf

end Bind

section Rules

variable {d : Decoder α} {o : Outcome α} {a : α} {least n : Nat}

-- A decoder that stays where it is, on both kinds of numbers.
theorem Checked.of_stays (hc : c.Within r) (he : d r.exact c = (o, c))
    (hw : d r.wrapping c = (o, c)) (ho : o ≠ .overrun) (hl : o = .fail ∨ least = 0) :
    d.Checked width least r c := by
  constructor <;> simp only [he]
  case no_overrun => exact ho
  case within => exact hc
  case spends => exact Nat.le_refl _
  case takes =>
    intro a ha
    have : least = 0 := hl.resolve_left (ha ▸ nofun)
    omega
  case agrees => exact fun _ => hw
  case breaks => exact fun h hn => absurd h hn

-- A decoder that goes on by some bytes that are there.
theorem Checked.of_moves (hc : c.Within r) (hn : c.off + n ≤ r.buffer.size)
    (he : d r.exact c = (.done a, c.moveTo (c.off + n)))
    (hw : d r.wrapping c = (.done a, c.moveTo (c.off + n))) (hl : least ≤ n) :
    d.Checked width least r c := by
  constructor <;> simp only [he]
  case no_overrun => nofun
  case within => exact ⟨hn, Cursor.moveTo_ascending hc.ascending (Nat.le_add_right ..)⟩
  case spends => simp only [Cursor.moveTo]; omega
  case takes => simp only [Cursor.moveTo]; omega
  case agrees => exact fun _ => hw
  case breaks => exact fun h hm => absurd h hm

theorem pure_careful (a : α) : (pure a : Decoder α).Careful width 0 where
  recording _ c := .refl c
  checked _ _ hc := .of_stays hc rfl rfl nofun (.inr rfl)

theorem fail_careful : (fail : Decoder α).Careful width least where
  recording _ c := .refl c
  checked _ _ hc := .of_stays hc rfl rfl nofun (.inl rfl)

theorem check_careful (b : Bool) : (check b).Careful width 0 where
  recording _ c := .refl c
  checked _ _ hc := .of_stays hc rfl rfl (by cases b <;> nofun) (.inr rfl)

theorem whole_careful (parse : List UInt8 → Option α) : (whole parse).Careful width 0 where
  recording _ c := .refl c
  checked r _ hc := by
    refine .of_stays (o := (parse r.buffer.bytes).elim .fail .done) hc rfl rfl ?_ (.inr rfl)
    cases parse r.buffer.bytes <;> nofun

theorem take_extends (n : Nat) (r : Reading) (c : Cursor) : (take n r c).snd.Extends c := by
  rw [take]
  split
  case isTrue => exact c.moveTo_extends _
  case isFalse => exact .refl c

theorem bytesIf_careful (b : Bool) (hn : n ≤ 2 ^ 63) : (bytesIf b n).Careful width n where
  recording r c := by
    rw [bytesIf]
    split
    case isTrue => exact .refl c
    case isFalse => exact take_extends n r c
  checked r c hc := by
    have hs := r.buffer.small
    have hb := hc.le_size
    have hr : r.wrapping.add c.off n = r.exact.add c.off n := by
      have : c.off + n < 2 ^ 64 := by
        change r.buffer.size < 2 ^ 63 at hs
        omega
      rw [Reading.add_wrapping, Reading.add_exact, Nat.mod_eq_of_lt this]
    by_cases hf : r.buffer.size < c.off + n ∨ ¬b
    case pos =>
      exact .of_stays hc (if_pos hf) (if_pos (hr ▸ hf)) nofun (.inl rfl)
    case neg =>
      have hle : c.off + n ≤ r.buffer.size := Nat.le_of_not_lt fun h => hf (.inl h)
      exact .of_moves hc hle ((if_neg hf).trans (if_pos hle))
        ((if_neg (hr ▸ hf)).trans (if_pos hle)) (Nat.le_refl n)

theorem opening_careful (mark : List UInt8) (more : Nat) :
    (opening mark more).Careful width 0 where
  recording r c := by
    rw [opening]
    split
    case isTrue => exact .refl c
    case isFalse =>
      exact Recording.bind (take_extends _) (fun _ _ => .refl) r c
  checked r c hc := by
    by_cases h : r.buffer.size < c.off + (mark.length + more) ∨
      (r.buffer.bytes.drop c.off).take mark.length ≠ mark
    case pos => exact .of_stays hc (if_pos h) (if_pos h) nofun (.inr rfl)
    case neg =>
      have hle : c.off + (mark.length + more) ≤ r.buffer.size :=
        Nat.le_of_not_lt (not_or.mp h).left
      exact .of_moves hc hle ((if_neg h).trans <| bind_of_done <| if_pos hle)
        ((if_neg h).trans <| bind_of_done <| if_pos hle) (Nat.zero_le _)

theorem map_careful (f : α → β) (h : d.Careful width least) :
    (do return f (← d) : Decoder β).Careful width least :=
  h.bind fun a => pure_careful (f a)

theorem byteIf_careful (b : Bool) : (byteIf b).Careful width 1 :=
  map_careful _ <| bytesIf_careful b (by omega)

theorem byte_careful : byte.Careful width 1 :=
  byteIf_careful true

theorem littleEndian_careful {bytes : Nat} (h : bytes ≤ 2 ^ 63) :
    (littleEndian bytes).Careful width bytes :=
  map_careful _ <| bytesIf_careful true h

theorem varintFrom_careful (limit : Nat) (shift value : UInt64) :
    (varintFrom limit shift value).Careful width 1 := by
  induction limit generalizing shift value
  case zero => exact fail_careful
  case succ limit hi =>
    refine (byte_careful.bind (l := 0) fun b => ?_).of_le (Nat.le_refl 1)
    split
    case isTrue => exact pure_careful _
    case isFalse => exact (hi ..).of_le (Nat.zero_le 1)

theorem varint_careful : varint.Careful width 1 :=
  varintFrom_careful ..

theorem optional_careful (b : Bool) (h : d.Careful width least) :
    (optional b d).Careful width 0 := by
  cases b
  case false => exact pure_careful none
  case true => exact (h.bind fun a => pure_careful (some a)).of_le (Nat.zero_le _)

-- A record that takes some bytes pays for itself.
theorem record_careful (h : d.Careful width width) : (record d).Careful width 0 where
  recording r c := by
    have := h.recording r c
    rw [record]
    rcases hr : d r c with ⟨_ | _ | _, c'⟩ <;> rw [hr] at this
    case done => exact ⟨this.offsets, this.lengths⟩
    all_goals exact this
  checked r c hc := by
    have ⟨ho, hw, hs, ht, ha, hk⟩ := h.checked r c hc
    have hb : Outcome.Broken (d r.wrapping c) → Outcome.Broken (record d r.wrapping c) := by
      intro hb
      rw [record]
      split
      case h_1 hr => exact .inr <| (hr ▸ hb).resolve_left nofun
      case h_2 => exact hb
    have hm : d r.wrapping c = d r.exact c →
        record d r.wrapping c = record d r.exact c := fun h => by rw [record, record, h]
    rcases hr : d r.exact c with ⟨_ | _ | _, c'⟩ <;> rw [hr] at ho hw hs ht ha hk <;>
      rw [hr] at hm
    case overrun => exact absurd rfl ho
    case fail =>
      have he : record d r.exact c = (.fail, c') := by rw [record, hr]
      constructor <;> rw [he]
      case no_overrun => nofun
      case within => exact hw
      case spends => exact hs
      case takes => nofun
      case agrees => exact fun h => he ▸ hm (ha h)
      case breaks => exact fun h hn => hb <| hk h hn
    case done a =>
      have he : record d r.exact c = (.done a, { c' with records := c'.records + 1 }) := by
        rw [record, hr]
      have ht := ht a rfl
      simp only at ht hs
      constructor <;> rw [he]
      case no_overrun => nofun
      case within => exact ⟨hw.le_size, hw.ascending⟩
      case spends => simp only [Nat.mul_add]; omega
      case takes => simp only [Nat.mul_add]; omega
      case agrees => exact fun h => he ▸ hm (ha h)
      case breaks => exact fun h hn => hb <| hk h hn

theorem recordsFrom_careful {body : Nat → α → Decoder α}
    (h : ∀ i a, (body i a).Careful width width) (n i : Nat) (a : α) :
    (recordsFrom body n i a).Careful width 0 := by
  induction n generalizing i a
  case zero => exact pure_careful a
  case succ n hi => exact (record_careful (h i a)).bind fun a => hi (i + 1) a

theorem records_careful {body : Nat → α → Decoder α} (h : ∀ i a, (body i a).Careful width width)
    (n : UInt64) (a : α) : (records n a body).Careful width 0 :=
  recordsFrom_careful h ..

end Rules

section Lengths

variable (len : UInt64)

theorem passOver_eq (r : Reading) (c : Cursor) :
    passOver len r c =
      if r.buffer.size < r.add c.off len.toNat then
        (.fail, c.noting len false)
      else
        (.done (), (c.noting len false).moveTo (r.add c.off len.toNat)) := by
  by_cases h : r.buffer.size < r.add c.off len.toNat
  case pos =>
    rw [passOver, bind_of_fail (e := c.noting len false) (by rw [fits, if_pos h]), if_pos h]
  case neg =>
    rw [passOver, bind_of_done (e := c.noting len false) (by rw [fits, if_neg h]), if_neg h]
    rfl

theorem copyOf_eq (r : Reading) (c : Cursor) :
    copyOf len r c =
      if r.buffer.size < r.add c.off len.toNat ∨ ¬r.malloc (len + 1) then
        (.fail, c.noting len true)
      else
        take len.toNat r (c.noting len true) := by
  by_cases h : r.buffer.size < r.add c.off len.toNat
  case pos =>
    rw [copyOf, bind_of_fail (e := c.noting len true) (by rw [fits, if_pos h]), if_pos (.inl h)]
  case neg =>
    rw [copyOf, bind_of_done (e := c.noting len true) (by rw [fits, if_neg h])]
    cases hm : r.malloc (len + 1)
    case false =>
      rw [bind_of_fail (e := c.noting len true) (by rw [request, hm]; rfl), if_pos (.inr nofun)]
    case true =>
      rw [bind_of_done (e := c.noting len true) (by rw [request, hm]; rfl),
        if_neg (not_or.mpr ⟨h, not_not_intro rfl⟩)]

variable {len}

theorem harmless_noting {copied : Bool} :
    r.Harmless (c.noting len copied) ↔ ¬r.Harmful ⟨c.off, len, copied⟩ ∧ r.Harmless c :=
  List.forall_mem_cons

-- A decoder that reads what a length says is checked if the length decides between the two runs.
theorem Checked.of_length {d : Decoder α} (len : UInt64) (copied ok : Bool) (a : α) (hc : c.Within r)
    (he : d r.exact c =
      if r.buffer.size < c.off + len.toNat ∨ ¬ok then
        (.fail, c.noting len copied)
      else
        (.done a, (c.noting len copied).moveTo (c.off + len.toNat)))
    (ha : ¬r.Harmful ⟨c.off, len, copied⟩ → d r.wrapping c = d r.exact c)
    (hb : r.Harmful ⟨c.off, len, copied⟩ → Outcome.Broken (d r.wrapping c)) :
    d.Checked width 0 r c := by
  have hl : r.Harmless (d r.exact c).snd ↔ r.Harmless (c.noting len copied) := by
    rw [he]
    split <;> rfl
  have hag (h : r.Harmless (d r.exact c).snd) : d r.wrapping c = d r.exact c :=
    ha (harmless_noting.mp (hl.mp h)).left
  have hbr (h : r.Harmless c) (hn : ¬r.Harmless (d r.exact c).snd) :
      Outcome.Broken (d r.wrapping c) :=
    hb <| not_not.mp fun hh => hn <| hl.mpr <| harmless_noting.mpr ⟨hh, h⟩
  by_cases hf : r.buffer.size < c.off + len.toNat ∨ ¬ok
  case pos =>
    rw [if_pos hf] at he
    refine ⟨?_, ?_, ?_, ?_, hag, hbr⟩ <;> rw [he]
    · nofun
    · exact ⟨hc.le_size, hc.ascending⟩
    · exact Nat.le_refl _
    · nofun
  case neg =>
    rw [if_neg hf] at he
    refine ⟨?_, ?_, ?_, ?_, hag, hbr⟩ <;> rw [he]
    · nofun
    · exact ⟨Nat.le_of_not_lt (not_or.mp hf).left,
        Cursor.moveTo_ascending hc.ascending (Nat.le_add_right ..)⟩
    · simp only [Cursor.moveTo, Cursor.noting]; omega
    · simp only [Cursor.moveTo, Cursor.noting]; omega

theorem passOver_careful (len : UInt64) : (passOver len).Careful width 0 where
  recording r c := by
    rw [passOver_eq]
    split
    case isTrue => exact c.noting_extends ..
    case isFalse => exact (c.noting_extends ..).trans (Cursor.moveTo_extends ..)
  checked r c hc := by
    have hb := hc.le_size
    have hl := len.toNat_lt
    have hs : r.buffer.size < 2 ^ 63 := r.buffer.small
    refine .of_length len false true () hc ?exact ?agrees ?breaks
    case exact => simp [passOver_eq, Reading.add, Reading.exact]
    case agrees =>
      intro h
      have hn : c.off + len.toNat < 2 ^ 64 := Nat.lt_of_not_le fun hn => h ⟨hn, nofun⟩
      rw [passOver_eq, passOver_eq, Reading.add_wrapping, Nat.mod_eq_of_lt hn]
      rfl
    case breaks =>
      intro ⟨hn, _⟩
      have hm : (c.off + len.toNat) % 2 ^ 64 < c.off := by
        simp only at hn
        omega
      have hf : ¬r.buffer.size < (c.off + len.toNat) % 2 ^ 64 := by omega
      rw [passOver_eq, Reading.add_wrapping]
      exact (if_neg hf).symm ▸ .inr (Cursor.not_ascending_moveTo hm)

theorem copyOf_careful (len : UInt64) : (copyOf len).Careful width 0 where
  recording r c := by
    rw [copyOf_eq]
    split
    case isTrue => exact c.noting_extends ..
    case isFalse => exact (c.noting_extends ..).trans (take_extends ..)
  checked r c hc := by
    have hb := hc.le_size
    have hl := len.toNat_lt
    have hs : r.buffer.size < 2 ^ 63 := r.buffer.small
    refine .of_length len true (r.malloc (len + 1)) ((r.buffer.bytes.drop c.off).take len.toNat) hc
      ?exact ?agrees ?breaks
    case exact =>
      rw [copyOf_eq, Reading.add_exact]
      split
      case isTrue h => exact (if_pos h).symm
      case isFalse h =>
        have hle : c.off + len.toNat ≤ r.buffer.size := Nat.le_of_not_lt (not_or.mp h).left
        exact (if_pos hle).trans (if_neg h).symm
    case agrees =>
      intro h
      rw [copyOf_eq, copyOf_eq]
      by_cases hm : r.malloc (len + 1)
      case pos =>
        have hn : c.off + len.toNat < 2 ^ 64 := Nat.lt_of_not_le fun hn => h ⟨hn, fun _ => hm⟩
        rw [Reading.add_wrapping, Nat.mod_eq_of_lt hn]
        rfl
      case neg => exact (if_pos (.inr hm)).trans (if_pos (.inr hm)).symm
    case breaks =>
      intro ⟨hn, hm⟩
      simp only at hn
      have hf : ¬(r.buffer.size < (c.off + len.toNat) % 2 ^ 64 ∨ ¬r.malloc (len + 1)) :=
        not_or.mpr ⟨by omega, not_not_intro (hm rfl)⟩
      rw [copyOf_eq, Reading.add_wrapping]
      refine .inl ?_
      rw [if_neg (by exact hf), take, if_neg]
      change ¬c.off + len.toNat ≤ r.buffer.size
      omega

theorem copy_careful : copy.Careful width 1 :=
  varint_careful.bind copyOf_careful

theorem pass_careful : pass.Careful width 1 :=
  varint_careful.bind passOver_careful

end Lengths

-- What a run of a decoder does: it reads inside of the buffer only, its offsets never move back
-- and stay in the buffer, and the records it has read fit in.
structure Safe (width : Nat) (d : Decoder α) (r : Reading) : Prop where
  no_overrun : (d r {}).fst ≠ .overrun
  ascending  : (d r {}).snd.Ascending
  le_size    : (d r {}).snd.off ≤ r.buffer.size
  records    : width * (d r {}).snd.records ≤ r.buffer.size

theorem start_within (r : Reading) : Cursor.Within {} r :=
  ⟨Nat.zero_le _, List.pairwise_singleton ..⟩

theorem Checked.safe_iff {d : Decoder α} {least : Nat} (h : d.Checked width least r {}) :
    d.Safe width r.wrapping ↔ r.Harmless (d r.exact {}).snd where
  mp hs := by
    by_contra hn
    exact (h.breaks nofun hn).elim hs.no_overrun fun ha => ha hs.ascending
  mpr hl := by
    have ha := h.agrees hl
    have hw := h.within
    have hk := h.spends
    refine ⟨ha ▸ h.no_overrun, ha ▸ hw.ascending, ha ▸ hw.le_size, ?_⟩
    rw [ha]
    have := hw.le_size
    simp only [Nat.mul_zero, Nat.zero_add, Nat.add_zero] at hk
    exact Nat.le_trans hk this

end Decoder
