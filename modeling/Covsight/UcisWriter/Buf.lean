import Covsight.Lib.Buffering

-- The output buffer of the C writer. Each operation gives the status it returns as the buffer's own.

inductive UcisWriterStatus
  | ok | errAlloc | errIo | errUsage | errOrder | errSealed | errDepth | errUnbalanced | errState
  deriving DecidableEq

-- `data` is the storage's first `len` bytes, and `calls` what was handed to the sink.
structure UwBuf where
  data     : List UInt8
  cap      : Nat
  write    : Option (Accepts UInt8)
  close    : Option Bool
  status   : UcisWriterStatus
  bytesOut : Nat
  calls    : List (List UInt8)

namespace UwBuf

def init (cap : Nat) (write : Option (Accepts UInt8)) (close : Option Bool) : UwBuf where
  data     := []
  cap      := cap
  write    := write
  close    := close
  status   := .ok
  bytesOut := 0
  calls    := []

def fail (b : UwBuf) (status : UcisWriterStatus) : UwBuf :=
  if b.status = .ok then { b with status := status } else b

def emit (b : UwBuf) (s : List UInt8) : UwBuf :=
  if b.status ≠ .ok then
    b
  else if s.length = 0 then
    b
  else
    match b.write with
    | none         => b.fail .errState
    | some accepts =>
      let b := { b with calls := b.calls ++ [s] }
      if accepts b.calls then { b with bytesOut := b.bytesOut + s.length } else b.fail .errIo

def flush (b : UwBuf) : UwBuf :=
  let s := b.data
  let b := { b with data := [] }
  if b.status ≠ .ok then b else b.emit s

-- `close` tells whether closing the sink goes well, where it can be closed.
def finish (b : UwBuf) : UwBuf :=
  let b := b.flush
  match b.close with
  | some closed =>
    let b := { b with close := none, write := none }
    if closed then b else b.fail .errIo
  | none        => { b with write := none }

def writeBytes (b : UwBuf) (s : List UInt8) : UwBuf :=
  if b.status ≠ .ok then
    b
  else if s.length = 0 then
    b
  else if b.data.length + s.length ≤ b.cap then
    { b with data := b.data ++ s }
  else
    let b := b.flush
    if b.status ≠ .ok then
      b
    else if s.length ≤ b.cap then
      { b with data := s }
    else
      b.emit s

def putc (b : UwBuf) (c : UInt8) : UwBuf :=
  if b.status ≠ .ok then
    b
  else
    let b := if b.data.length = b.cap then b.flush else b
    if b.status ≠ .ok then b else { b with data := b.data ++ [c] }

-- A string ends before its first null byte.
def puts (b : UwBuf) : (s : Option (List UInt8)) → UwBuf
  | none   => b
  | some s => b.writeBytes (s.takeWhile (· ≠ 0))

inductive Op
  | write (s : List UInt8)
  | putc (c : UInt8)
  | puts (s : Option (List UInt8))
  | flush
  | finish

def Op.written : Op → List UInt8
  | write s        => s
  | putc c         => [c]
  | puts s         => (s.getD []).takeWhile (· ≠ 0)
  | flush | finish => []

def apply (b : UwBuf) : Op → UwBuf
  | .write s => b.writeBytes s
  | .putc c  => b.putc c
  | .puts s  => b.puts s
  | .flush   => b.flush
  | .finish  => b.finish

-- `room` is what keeps the stores within the storage. The sink is gone once the buffer is finished.
structure Sound (accepts : Accepts UInt8) (written : List UInt8) (finished : Prop) (b : UwBuf) : Prop where
  carries : Carries accepts written b.calls b.data (b.status = .ok)
  room    : b.data.length ≤ b.cap
  storage : 0 < b.cap
  sink    : b.write = some accepts ∨ b.write = none ∧ finished
  failure : b.status ≠ .ok → SinkRefused accepts b.calls ∨ finished

variable {accepts : Accepts UInt8} {written : List UInt8} {finished : Prop} {b : UwBuf}

theorem init_sound (accepts : Accepts UInt8) {cap : Nat} (h : 0 < cap) (close : Option Bool) :
    Sound accepts [] False (init cap (some accepts) close) where
  carries   := .nil accepts
  room      := Nat.zero_le _
  storage   := h
  sink      := .inl rfl
  failure h := absurd rfl h

-- The bytes given are all that is still to be handed over.
theorem emit_sound {s : List UInt8} (hd : b.data = []) (hc : Carries accepts written b.calls s (b.status = .ok))
    (h0 : 0 < b.cap) (hs : b.write = some accepts ∨ b.write = none ∧ finished)
    (hf : b.status ≠ .ok → SinkRefused accepts b.calls ∨ finished) :
    Sound accepts written finished (b.emit s) ∧ (b.emit s).data = [] := by
  have hroom : b.data.length ≤ b.cap := hd ▸ Nat.zero_le _
  rw [emit]
  split
  case isTrue ho => exact ⟨⟨hc.fail ho b.data, hroom, h0, hs, hf⟩, hd⟩
  case isFalse ho =>
    have ho := not_not.mp ho
    split
    case isTrue hn =>
      rw [List.eq_nil_of_length_eq_zero hn, ← hd] at hc
      exact ⟨⟨hc, hroom, h0, hs, hf⟩, hd⟩
    case isFalse =>
      rcases hs with hw | ⟨hw, hn⟩
      case inr =>
        rw [hw]
        dsimp only
        rw [fail, if_pos ho]
        exact ⟨⟨hc.fail nofun b.data, hroom, h0, .inr ⟨hw, hn⟩, fun _ => .inr hn⟩, hd⟩
      case inl =>
        rw [hw]
        rw [← List.append_nil s] at hc
        dsimp only
        split
        case isTrue ha =>
          have hc := hc.send ho fun _ : b.status = .ok => ha
          rw [← hd] at hc
          exact ⟨⟨hc, hroom, h0, .inl rfl, fun h => absurd ho h⟩, hd⟩
        case isFalse ha =>
          have ha := Bool.eq_false_iff.mpr ha
          rw [fail, if_pos ho]
          have hc := hc.send ho fun h : UcisWriterStatus.errIo = .ok => nomatch h
          rw [← hd] at hc
          have hr : SinkRefused accepts (b.calls ++ [s]) := ⟨List.append_ne_nil_of_right_ne_nil _ nofun, ha⟩
          exact ⟨⟨hc, hroom, h0, .inl rfl, fun _ => .inl hr⟩, hd⟩

namespace Sound

theorem flush (hb : Sound accepts written finished b) :
    Sound accepts written finished b.flush ∧ b.flush.data = [] := by
  rw [UwBuf.flush]
  dsimp only
  split
  case isTrue ho  => exact ⟨⟨hb.carries.fail ho [], Nat.zero_le _, hb.storage, hb.sink, hb.failure⟩, rfl⟩
  case isFalse ho => exact emit_sound rfl hb.carries hb.storage hb.sink hb.failure

theorem finish (hb : Sound accepts written finished b) : Sound accepts written True b.finish := by
  have ⟨hf, _⟩ := hb.flush
  rw [UwBuf.finish]
  dsimp only
  split
  case h_1 =>
    split
    case isTrue  => exact ⟨hf.carries, hf.room, hf.storage, .inr ⟨rfl, ⟨⟩⟩, fun _ => .inr ⟨⟩⟩
    case isFalse =>
      rw [fail]
      split
      case isTrue  => exact ⟨hf.carries.fail nofun _, hf.room, hf.storage, .inr ⟨rfl, ⟨⟩⟩, fun _ => .inr ⟨⟩⟩
      case isFalse => exact ⟨hf.carries, hf.room, hf.storage, .inr ⟨rfl, ⟨⟩⟩, fun _ => .inr ⟨⟩⟩
  case h_2 => exact ⟨hf.carries, hf.room, hf.storage, .inr ⟨rfl, ⟨⟩⟩, fun _ => .inr ⟨⟩⟩

-- The paths are those of a failed buffer, of a write that fits, and of one that fits once the buffer is flushed or
-- goes past it.
theorem writeBytes (hb : Sound accepts written finished b) (s : List UInt8) :
    Sound accepts (written ++ s) finished (b.writeBytes s) := by
  have hh := hb.carries.hold s
  rw [UwBuf.writeBytes]
  split
  case isTrue ho => exact ⟨hb.carries.drop ho s b.data, hb.room, hb.storage, hb.sink, hb.failure⟩
  case isFalse =>
    split
    case isTrue hn =>
      cases List.eq_nil_of_length_eq_zero hn
      rwa [List.append_nil]
    case isFalse =>
      split
      case isTrue hl => exact ⟨hh, List.length_append ▸ hl, hb.storage, hb.sink, hb.failure⟩
      case isFalse =>
        have ⟨hf, hd⟩ := hb.flush
        have hh := hf.carries.hold s
        rw [hd, List.nil_append] at hh
        dsimp only
        split
        case isTrue ho => exact ⟨hf.carries.drop ho s b.flush.data, hf.room, hf.storage, hf.sink, hf.failure⟩
        case isFalse =>
          split
          case isTrue hl => exact ⟨hh, hl, hf.storage, hf.sink, hf.failure⟩
          case isFalse   => exact (emit_sound hd hh hf.storage hf.sink hf.failure).left

theorem putc (hb : Sound accepts written finished b) (c : UInt8) :
    Sound accepts (written ++ [c]) finished (b.putc c) := by
  rw [UwBuf.putc]
  split
  case isTrue ho => exact ⟨hb.carries.drop ho [c] b.data, hb.room, hb.storage, hb.sink, hb.failure⟩
  case isFalse =>
    have hr (b : UwBuf) (hb : Sound accepts written finished b) (hl : b.data.length < b.cap) :
        Sound accepts (written ++ [c]) finished (if b.status ≠ .ok then b else { b with data := b.data ++ [c] }) := by
      split
      case isTrue ho => exact ⟨hb.carries.drop ho [c] b.data, hb.room, hb.storage, hb.sink, hb.failure⟩
      case isFalse   => exact ⟨hb.carries.hold [c], List.length_append ▸ hl, hb.storage, hb.sink, hb.failure⟩
    split
    case isTrue =>
      have ⟨hf, hd⟩ := hb.flush
      exact hr _ hf (hd ▸ hf.storage)
    case isFalse hl => exact hr b hb (Nat.lt_of_le_of_ne hb.room hl)

theorem mono {finished' : Prop} (hb : Sound accepts written finished b) (h : finished → finished') :
    Sound accepts written finished' b where
  carries   := hb.carries
  room      := hb.room
  storage   := hb.storage
  sink      := hb.sink.imp_right (And.imp_right h)
  failure h' := (hb.failure h').imp_right h

theorem apply (hb : Sound accepts written finished b) (op : Op) :
    Sound accepts (written ++ op.written) (finished ∨ op = .finish) (b.apply op) := by
  cases op
  case write s => exact (hb.writeBytes s).mono .inl
  case putc c  => exact (hb.putc c).mono .inl
  case puts s  =>
    cases s
    case none   => exact (List.append_nil written).symm ▸ hb.mono .inl
    case some s => exact (hb.writeBytes _).mono .inl
  case flush  => exact (List.append_nil written).symm ▸ hb.flush.left.mono .inl
  case finish => exact (List.append_nil written).symm ▸ hb.finish.mono fun _ => .inr rfl

theorem run (hb : Sound accepts written finished b) (ops : List Op) :
    Sound accepts (written ++ ops.flatMap Op.written) (finished ∨ .finish ∈ ops) (ops.foldl UwBuf.apply b) := by
  induction ops generalizing written finished b
  case nil            => exact (List.append_nil written).symm ▸ hb.mono .inl
  case cons op ops hi =>
    rw [List.flatMap_cons, ← List.append_assoc, List.mem_cons, ← or_assoc, eq_comm (a := Op.finish)]
    exact hi (hb.apply op)

end Sound

end UwBuf
