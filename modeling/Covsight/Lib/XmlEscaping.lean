import Covsight.Lib.Xml

-- Bytes that are copied in runs, with something else put in for some of them.

namespace Xml

variable {σ : Type}

-- What is done where the bytes that are left begin: some of them stay in the run, or one is replaced.
inductive Scan (σ : Type)
  | keep (length : Nat)
  | replace (text : List UInt8) (note : σ → σ)

structure Escaped (σ : Type) where
  out   : List UInt8
  notes : σ

namespace Escaped

def write (e : Escaped σ) (bytes : List UInt8) : Escaped σ :=
  { e with out := e.out ++ bytes }

end Escaped

-- The bytes from the start of the run to a position.
def span (s : List UInt8) (run i : Nat) : List UInt8 :=
  if i > run then (s.drop run).take (i - run) else []

def copyRuns (scan : List UInt8 → Scan σ) (s : List UInt8) : (fuel i run : Nat) → Escaped σ → Escaped σ
  | 0,        i, run, e => e.write (span s run i)
  | fuel + 1, i, run, e =>
    if i < s.length then
      match scan (s.drop i) with
      | .keep length       => copyRuns scan s fuel (i + length) run e
      | .replace text note =>
        let e := (e.write (span s run i)).write text
        copyRuns scan s fuel (i + 1) (i + 1) { e with notes := note e.notes }
    else
      e.write (span s run i)

def escapeWith (scan : List UInt8 → Scan σ) (s : List UInt8) (notes : σ) : Escaped σ :=
  copyRuns scan s s.length 0 0 ⟨[], notes⟩

-- Without runs

def escapeFrom (scan : List UInt8 → Scan σ) : (fuel : Nat) → List UInt8 → Escaped σ → Escaped σ
  | 0,        _, e => e
  | fuel + 1, s, e =>
    if s = [] then e
    else
      match scan s with
      | .keep length       => escapeFrom scan fuel (s.drop length) (e.write (s.take length))
      | .replace text note => escapeFrom scan fuel s.tail { e.write text with notes := note e.notes }

section

variable {scan : List UInt8 → Scan σ} {s : List UInt8} {fuel i run n : Nat} {e : Escaped σ}

theorem span_eq (s : List UInt8) (run i : Nat) : span s run i = (s.drop run).take (i - run) := by
  rw [span]
  split
  case isTrue     => rfl
  case isFalse hn => rw [Nat.sub_eq_zero_of_le (Nat.le_of_not_gt hn), List.take_zero]

theorem span_add (h : run ≤ i) : span s run (i + n) = span s run i ++ (s.drop i).take n := by
  have hi : i + n - run = i - run + n := by omega
  have hd : (s.drop run).drop (i - run) = s.drop i := by rw [List.drop_drop, Nat.add_sub_cancel' h]
  rw [span_eq, span_eq, hi, List.take_add, hd]

theorem copyRuns_eq (h : run ≤ i) :
    copyRuns scan s fuel i run e = escapeFrom scan fuel (s.drop i) (e.write (span s run i)) := by
  induction fuel generalizing i run e with
  | zero         => rfl
  | succ fuel hi =>
    rw [copyRuns, escapeFrom]
    by_cases hs : i < s.length
    case neg => rw [if_neg hs, if_pos (List.drop_eq_nil_of_le (Nat.le_of_not_lt hs))]
    case pos =>
      have hn : s.drop i ≠ [] := by simpa using hs
      rw [if_pos hs, if_neg hn]
      cases scan (s.drop i) with
      | keep length       =>
        simp only [hi (Nat.le_add_right_of_le h), span_add h, List.drop_drop, Escaped.write, List.append_assoc]
      | replace text note =>
        simp only [hi (Nat.le_refl _), List.tail_drop, Escaped.write]
        simp [span]

theorem escapeWith_eq (scan : List UInt8 → Scan σ) (s : List UInt8) (notes : σ) :
    escapeWith scan s notes = escapeFrom scan s.length s ⟨[], notes⟩ := by
  rw [escapeWith, copyRuns_eq (Nat.le_refl 0)]
  rfl

end

-- The text does not depend on what was noted before.
theorem out_escapeFrom {scan : List UInt8 → Scan σ} {s : List UInt8} {fuel : Nat} {e e' : Escaped σ}
    (h : e.out = e'.out) : (escapeFrom scan fuel s e).out = (escapeFrom scan fuel s e').out := by
  induction fuel generalizing s e e' with
  | zero         => exact h
  | succ fuel hi =>
    rw [escapeFrom, escapeFrom]
    split
    case isTrue  => exact h
    case isFalse =>
      cases scan s with
      | keep length       => exact hi (congrArg (· ++ _) h)
      | replace text note => exact hi (congrArg (· ++ _) h)

theorem out_escapeWith (scan : List UInt8 → Scan σ) (s : List UInt8) (notes notes' : σ) :
    (escapeWith scan s notes).out = (escapeWith scan s notes').out := by
  rw [escapeWith_eq, escapeWith_eq]
  exact out_escapeFrom rfl

-- Scanning by characters, for bytes that are as assumed.
structure ScansChars (scan : List UInt8 → Scan σ) (count : σ → Nat) (ok : List UInt8 → Prop) : Prop where
  tail {b s} : ok (b :: s) → ok s
  bad {b s}  : ok (b :: s) → charLength (b :: s) = 0 →
    ∃ note, scan (b :: s) = .replace (ascii ['?']) note ∧ ∀ n, count (note n) = count n + 1
  char {cp s} : isChar cp → (isPlain cp ∧ scan (encode cp ++ s) = .keep (encode cp).length) ∨
    ((encode cp).length = 1 ∧ ∃ body note, ';'.toUInt8 ∉ body ∧ referred? body = some (encode cp) ∧
      scan (encode cp ++ s) = .replace ('&'.toUInt8 :: (body ++ [';'.toUInt8])) note ∧
      ∀ n, count (note n) = count n)

namespace ScansChars

variable {scan : List UInt8 → Scan σ} {count : σ → Nat} {ok : List UInt8 → Prop}

theorem drop (h : ScansChars scan count ok) {c s : List UInt8} (hok : ok (c ++ s)) : ok s := by
  induction c with
  | nil         => exact hok
  | cons b c hi => exact hi (h.tail hok)

theorem unescape_question (s : List UInt8) :
    unescape (ascii ['?'] ++ s) = ('?'.toUInt8 :: ·) <$> unescape s :=
  @unescape_char s 0x3F (by decide)

-- The text stands for the bytes with the bad ones replaced, each of which is counted.
theorem escapeFrom_exact (h : ScansChars scan count ok) {s : List UInt8} (hok : ok s) {fuel : Nat}
    (hf : s.length ≤ fuel) (e : Escaped σ) : ∃ text, (escapeFrom scan fuel s e).out = e.out ++ text ∧
    unescape text = some (sanitize s) ∧ count (escapeFrom scan fuel s e).notes = count e.notes + illegal s := by
  induction s using scan_induction generalizing fuel e with
  | nil           =>
    have he : escapeFrom scan fuel [] e = e := by cases fuel <;> rfl
    rw [he]
    exact ⟨[], (List.append_nil _).symm, rfl, rfl⟩
  | bad b s hb hi =>
    obtain ⟨fuel, rfl⟩ := Nat.exists_eq_add_one.mpr <| Nat.lt_of_lt_of_le (Nat.succ_pos _) hf
    have ⟨note, hs, hn⟩ := h.bad hok hb
    have ⟨text, ho, ht, hc⟩ := hi (h.tail hok) (Nat.le_of_succ_le_succ hf)
      { e.write (ascii ['?']) with notes := note e.notes }
    have he : escapeFrom scan (fuel + 1) (b :: s) e =
        escapeFrom scan fuel s { e.write (ascii ['?']) with notes := note e.notes } := by
      rw [escapeFrom, if_neg (List.cons_ne_nil _ _), hs]
      rfl
    refine ⟨ascii ['?'] ++ text, ?_, ?_, ?_⟩
    case refine_1 => rw [he, ho, Escaped.write, List.append_assoc]
    case refine_2 =>
      rw [unescape_question, ht, sanitize_bad hb]
      rfl
    case refine_3 =>
      rw [he, hc, hn, illegal_bad hb]
      omega
  | char cp s hcp hi =>
    have hl := List.length_pos_iff.mpr (encode_ne_nil cp)
    have hne : encode cp ++ s ≠ [] := List.append_ne_nil_of_left_ne_nil (encode_ne_nil cp) s
    rw [List.length_append] at hf
    obtain ⟨fuel, rfl⟩ := Nat.exists_eq_add_one.mpr <| Nat.lt_of_lt_of_le (Nat.add_pos_left hl _) hf
    have hf : s.length ≤ fuel := by omega
    rcases h.char (s := s) hcp with ⟨hp, hs⟩ | ⟨hlen, body, note, hb, hr, hs, hn⟩
    case inl =>
      have ⟨text, ho, ht, hc⟩ := hi (h.drop hok) hf (e.write (encode cp))
      have he : escapeFrom scan (fuel + 1) (encode cp ++ s) e = escapeFrom scan fuel s (e.write (encode cp)) := by
        rw [escapeFrom, if_neg hne, hs]
        simp
      refine ⟨encode cp ++ text, ?_, ?_, ?_⟩
      case refine_1 => rw [he, ho, Escaped.write, List.append_assoc]
      case refine_2 =>
        rw [unescape_char hp, ht, sanitize_char hcp]
        rfl
      case refine_3 =>
        rw [he, hc, illegal_char hcp]
        rfl
    case inr =>
      have ⟨text, ho, ht, hc⟩ := hi (h.drop hok) hf
        { e.write ('&'.toUInt8 :: (body ++ [';'.toUInt8])) with notes := note e.notes }
      have htail : (encode cp ++ s).tail = s := by
        obtain ⟨a, ha⟩ := List.length_eq_one_iff.mp hlen
        rw [ha]
        rfl
      have he : escapeFrom scan (fuel + 1) (encode cp ++ s) e = escapeFrom scan fuel s
          { e.write ('&'.toUInt8 :: (body ++ [';'.toUInt8])) with notes := note e.notes } := by
        rw [escapeFrom, if_neg hne, hs, htail]
      refine ⟨'&'.toUInt8 :: (body ++ ';'.toUInt8 :: text), ?_, ?_, ?_⟩
      case refine_1 =>
        rw [he, ho]
        simp [Escaped.write]
      case refine_2 =>
        rw [unescape_reference hb hr, ht, sanitize_char hcp]
        rfl
      case refine_3 => rw [he, hc, hn, illegal_char hcp]

theorem escapeWith_exact (h : ScansChars scan count ok) {s : List UInt8} (hok : ok s) (notes : σ) :
    unescape (escapeWith scan s notes).out = some (sanitize s) ∧
    count (escapeWith scan s notes).notes = count notes + illegal s := by
  have ⟨text, ho, ht, hc⟩ := h.escapeFrom_exact hok (Nat.le_refl _) ⟨[], notes⟩
  rw [escapeWith_eq, ho, List.nil_append]
  exact ⟨ht, hc⟩

end ScansChars

end Xml
