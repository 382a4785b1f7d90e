import Covsight.Lib.Splitting
import Covsight.Ncdb.ProjectData

-- Which paths a pattern of a waiver matches.

abbrev Segment :=
  List Char

namespace Glob

-- A star stands for any text of one segment, and all else for itself.
inductive SegmentMatch : Segment → Segment → Prop
  | nil : SegmentMatch [] []
  | star {p t u : Segment} (h : SegmentMatch p u) : SegmentMatch ('*' :: p) (t ++ u)
  | letter {c : Char} {p t : Segment} (hc : c ≠ '*') (h : SegmentMatch p t) : SegmentMatch (c :: p) (c :: t)

namespace SegmentMatch

variable {p t : Segment} {c : Char}

theorem nil_iff : SegmentMatch [] t ↔ t = [] := by
  constructor
  · intro h
    cases h
    rfl
  · rintro rfl
    exact .nil

theorem star_iff : SegmentMatch ('*' :: p) t ↔ ∃ x u, SegmentMatch p u ∧ t = x ++ u := by
  constructor
  · intro h
    cases h with
    | star h      => exact ⟨_, _, h, rfl⟩
    | letter hc _ => exact absurd rfl hc
  · rintro ⟨x, u, h, rfl⟩
    exact .star h

theorem letter_iff (hc : c ≠ '*') : SegmentMatch (c :: p) t ↔ ∃ u, SegmentMatch p u ∧ t = c :: u := by
  constructor
  · intro h
    cases h with
    | star h     => exact absurd rfl hc
    | letter _ h => exact ⟨_, h, rfl⟩
  · rintro ⟨u, h, rfl⟩
    exact .letter hc h

end SegmentMatch

def anySegments : Segment :=
  ['*', '*']

-- A path matches segment by segment. Some sequences of segments may stand for two stars, also depending on
-- whether these come last.
inductive PathMatch (allowed : Bool → List Segment → Prop) : List Segment → List Segment → Prop
  | nil : PathMatch allowed [] []
  | segment {p t : Segment} {ps ts : List Segment} (hp : p ≠ anySegments) (h : SegmentMatch p t)
    (hs : PathMatch allowed ps ts) : PathMatch allowed (p :: ps) (t :: ts)
  | any {run ps ts : List Segment} (h : allowed ps.isEmpty run) (hs : PathMatch allowed ps ts) :
    PathMatch allowed (anySegments :: ps) (run ++ ts)

-- What the segments of a path are.
def segments (path : String) : List Segment :=
  path.toList.splitOn '/'

-- Two stars are a whole segment.
def WholeStars (pattern : String) : Prop :=
  ∀ p ∈ segments pattern, p = anySegments ∨ ¬anySegments <:+: p

-- Two stars may stand for any segments, also for none.
def anyRun (_ : Bool) (_ : List Segment) : Prop :=
  True

-- No line break, no single empty segment before another segment, and at least one segment at the end.
def cleanRun (last : Bool) (run : List Segment) : Prop :=
  (∀ t ∈ run, '\n' ∉ t) ∧ if last then run ≠ [] else run ≠ [[]]

theorem PathMatch.mono {allowed allowed' : Bool → List Segment → Prop} {ps ts : List Segment}
    (h : PathMatch allowed ps ts) (ha : ∀ last run, allowed last run → allowed' last run) : PathMatch allowed' ps ts := by
  induction h with
  | nil               => exact .nil
  | segment hp h _ hi => exact .segment hp h hi
  | any h _ hi        => exact .any (ha _ _ h) hi

section Pieces

variable {p q rest t u : List Char} {w : List Char}

theorem pieces_star (h : ∀ cs, rest ≠ '*' :: cs) : pieces ('*' :: rest) = anyName :: pieces rest := by
  rw [pieces]
  all_goals
    intros
    exact h _ ‹_›

def plainPiece (c : Char) : Regex Char :=
  if c = '*' then anyName else .letter (· = c)

-- The pieces of a segment that is not two stars.
theorem pieces_append (hp : ¬anySegments <:+: p) (hr : ∀ cs, rest ≠ '*' :: cs) :
    pieces (p ++ rest) = p.map plainPiece ++ pieces rest := by
  induction p with
  | nil         => rfl
  | cons c p hi =>
    have hp' : ¬anySegments <:+: p := fun h => hp (List.infix_cons h)
    by_cases hc : c = '*'
    case pos =>
      subst hc
      have hn : ∀ cs, p ++ rest ≠ '*' :: cs := by
        intro cs he
        cases p with
        | nil        => exact hr cs he
        | cons c' p  =>
          cases he
          exact hp ⟨[], p, rfl⟩
      rw [List.cons_append, pieces_star hn, hi hp']
      rfl
    case neg =>
      rw [List.cons_append, pieces, hi hp', List.map_cons, plainPiece, if_neg hc]
      · rfl
      all_goals
        intros
        exact hc ‹_›

-- What the pieces of a segment match is within one segment.
theorem mem_segment_iff (hp : '/' ∉ p) {rs : List (Regex Char)} :
    w ∈ (Regex.seq (p.map plainPiece ++ rs)).language ↔
      ∃ t v, SegmentMatch p t ∧ '/' ∉ t ∧ v ∈ (Regex.seq rs).language ∧ w = t ++ v := by
  induction p generalizing w with
  | nil         => simp [SegmentMatch.nil_iff]
  | cons c p hi =>
    have ⟨hc, hp⟩ := not_or.mp <| List.mem_cons.not.mp hp
    rw [List.map_cons, List.cons_append, Regex.mem_seq_cons_iff]
    simp only [hi hp]
    by_cases hs : c = '*'
    case pos =>
      subst hs
      rw [plainPiece, if_pos rfl, anyName]
      simp only [Regex.mem_star_letter_iff, decide_eq_true_iff, SegmentMatch.star_iff]
      constructor
      · rintro ⟨x, _, hx, ⟨t, v, ht, hn, hv, rfl⟩, rfl⟩
        refine ⟨x ++ t, v, ⟨x, t, ht, rfl⟩, ?_, hv, (List.append_assoc ..).symm⟩
        rw [List.mem_append, not_or]
        exact ⟨fun hm => hx _ hm rfl, hn⟩
      · rintro ⟨_, v, ⟨x, t, ht, rfl⟩, hn, hv, rfl⟩
        rw [List.mem_append, not_or] at hn
        exact ⟨x, t ++ v, fun a ha he => hn.1 (he ▸ ha), ⟨t, v, ht, hn.2, hv, rfl⟩, List.append_assoc ..⟩
    case neg =>
      rw [plainPiece, if_neg hs]
      simp only [Regex.mem_letter_iff, decide_eq_true_iff, SegmentMatch.letter_iff hs]
      constructor
      · rintro ⟨_, _, ⟨_, rfl, rfl⟩, ⟨t, v, ht, hn, hv, rfl⟩, rfl⟩
        refine ⟨_ :: t, v, ⟨t, ht, rfl⟩, ?_, hv, rfl⟩
        rw [List.mem_cons, not_or]
        exact ⟨hc, hn⟩
      · rintro ⟨_, v, ⟨t, ht, rfl⟩, hn, hv, rfl⟩
        rw [List.mem_cons, not_or] at hn
        exact ⟨[c], t ++ v, ⟨c, rfl, rfl⟩, ⟨t, v, ht, hn.2, hv, rfl⟩, rfl⟩

theorem mem_anyText_iff : w ∈ anyText.language ↔ '\n' ∉ w := by
  rw [anyText, Regex.mem_star_letter_iff]
  simp only [decide_eq_true_iff]
  exact ⟨fun h hm => h _ hm rfl, fun h a ha he => h (he ▸ ha)⟩

theorem mem_anyDirs_iff : w ∈ anyDirs.language ↔ w = [] ∨ ∃ u, u ≠ [] ∧ '\n' ∉ u ∧ w = u ++ ['/'] := by
  have hu {u : List Char} : u ∈ (Regex.cat (.letter (· ≠ '\n')) anyText).language ↔ u ≠ [] ∧ '\n' ∉ u := by
    rw [Regex.language, Language.mem_mul]
    simp only [Regex.mem_letter_iff, decide_eq_true_iff, mem_anyText_iff]
    constructor
    · rintro ⟨_, ⟨c, hc, rfl⟩, v, hv, rfl⟩
      exact ⟨by simp, by simpa [hv] using Ne.symm hc⟩
    · rintro ⟨hne, hn⟩
      obtain ⟨c, v, rfl⟩ := List.exists_cons_of_ne_nil hne
      rw [List.mem_cons, not_or] at hn
      exact ⟨[c], ⟨c, Ne.symm hn.1, rfl⟩, v, hn.2, rfl⟩
  have hd : w ∈ anyDirs.language ↔
      w ∈ (Regex.cat (.letter (· ≠ '\n')) anyText).language * (Regex.letter (· = '/')).language ∨ w = [] :=
    or_congr Iff.rfl (Language.mem_one w)
  rw [hd, or_comm, Language.mem_mul]
  simp only [Regex.mem_letter_iff, decide_eq_true_iff, hu]
  refine or_congr Iff.rfl ?_
  constructor
  · rintro ⟨u, ⟨hne, hn⟩, _, ⟨_, rfl, rfl⟩, rfl⟩
    exact ⟨u, hne, hn, rfl⟩
  · rintro ⟨u, hne, hn, rfl⟩
    exact ⟨u, ⟨hne, hn⟩, _, ⟨_, rfl, rfl⟩, rfl⟩

end Pieces

namespace PathMatch

variable {allowed : Bool → List Segment → Prop} {p : Segment} {ps ts : List Segment}

theorem nil_iff : PathMatch allowed [] ts ↔ ts = [] := by
  constructor
  · intro h
    cases h
    rfl
  · rintro rfl
    exact .nil

theorem segment_iff (hp : p ≠ anySegments) :
    PathMatch allowed (p :: ps) ts ↔ ∃ t us, SegmentMatch p t ∧ PathMatch allowed ps us ∧ ts = t :: us := by
  constructor
  · intro h
    cases h with
    | segment _ h hs => exact ⟨_, _, h, hs, rfl⟩
    | any _ _        => exact absurd rfl hp
  · rintro ⟨t, us, h, hs, rfl⟩
    exact .segment hp h hs

theorem any_iff :
    PathMatch allowed (anySegments :: ps) ts ↔
      ∃ run us, allowed ps.isEmpty run ∧ PathMatch allowed ps us ∧ ts = run ++ us := by
  constructor
  · intro h
    cases h with
    | segment hp _ _ => exact absurd rfl hp
    | any h hs       => exact ⟨_, _, h, hs, rfl⟩
  · rintro ⟨run, us, h, hs, rfl⟩
    exact .any h hs

theorem ne_nil (h : PathMatch cleanRun ps ts) (hp : ps ≠ []) : ts ≠ [] := by
  induction h with
  | nil             => exact hp
  | segment _ _ _ _ => exact List.cons_ne_nil _ _
  | @any _ ps _ h _ hi =>
    cases ps with
    | nil      => exact List.append_ne_nil_of_left_ne_nil h.2 _
    | cons _ _ => exact List.append_ne_nil_of_right_ne_nil _ (hi <| List.cons_ne_nil _ _)

end PathMatch

section Languages

variable {p q : Segment} {ps : List Segment} {text : List Char}

theorem breaks_iff {u : List Char} : (∀ t ∈ u.splitOn '/', '\n' ∉ t) ↔ '\n' ∉ u := by
  simpa using (Splitting.mem_splitOn_iff (w := u) (show '\n' ≠ '/' by decide)).not

-- The last segment of a pattern.
theorem last_iff (hs : '/' ∉ p) (hp : p = anySegments ∨ ¬anySegments <:+: p) :
    text ∈ (Regex.seq (pieces p)).language ↔ PathMatch cleanRun [p] (text.splitOn '/') := by
  cases hp with
  | inl hp =>
    subst hp
    rw [PathMatch.any_iff, anySegments, pieces]
    · simp only [Regex.mem_seq_cons_iff, pieces, Regex.mem_seq_nil_iff, mem_anyText_iff, PathMatch.nil_iff]
      constructor
      · rintro ⟨u, _, hu, rfl, rfl⟩
        rw [List.append_nil]
        exact ⟨_, [], ⟨breaks_iff.mpr hu, List.splitOn_ne_nil _ _⟩, rfl, (List.append_nil _).symm⟩
      · rintro ⟨run, _, ⟨hn, _⟩, rfl, he⟩
        rw [List.append_nil] at he
        exact ⟨text, [], breaks_iff.mp (he ▸ hn), rfl, (List.append_nil _).symm⟩
    · intro _ h
      cases h
  | inr hp =>
    have hne : p ≠ anySegments := fun h => hp (h ▸ List.infix_rfl)
    have hl : pieces (p ++ []) = p.map plainPiece ++ pieces [] := pieces_append hp nofun
    rw [List.append_nil] at hl
    rw [hl, mem_segment_iff hs, PathMatch.segment_iff hne]
    simp only [pieces, Regex.mem_seq_nil_iff, PathMatch.nil_iff]
    constructor
    · rintro ⟨t, _, ht, hn, rfl, rfl⟩
      rw [List.append_nil]
      exact ⟨t, [], ht, rfl, List.splitOn_eq_singleton hn⟩
    · rintro ⟨t, _, ht, rfl, he⟩
      have ⟨hw, hn⟩ := Splitting.splitOn_eq_singleton_iff.mp he
      exact ⟨t, [], ht, hn, rfl, hw.trans (List.append_nil _).symm⟩

-- A segment before others.
theorem cons_iff {rest : List Char} (hs : '/' ∉ p) (hp : p = anySegments ∨ ¬anySegments <:+: p) (hne : ps ≠ [])
    (hr : ∀ v, v ∈ (Regex.seq (pieces rest)).language ↔ PathMatch cleanRun ps (v.splitOn '/')) :
    text ∈ (Regex.seq (pieces (p ++ '/' :: rest))).language ↔ PathMatch cleanRun (p :: ps) (text.splitOn '/') := by
  cases hp with
  | inl hp =>
    have he : ps.isEmpty = false := List.isEmpty_eq_false_iff.mpr hne
    subst hp
    rw [PathMatch.any_iff, show anySegments ++ '/' :: rest = '*' :: '*' :: '/' :: rest from rfl, pieces,
      Regex.mem_seq_cons_iff]
    simp only [mem_anyDirs_iff, hr, he]
    constructor
    case mp =>
      rintro ⟨_, v, rfl | ⟨u, hu, hn, rfl⟩, hv, rfl⟩
      · exact ⟨[], _, ⟨nofun, nofun⟩, hv, rfl⟩
      · refine ⟨u.splitOn '/', _, ⟨breaks_iff.mpr hn, fun hs => ?_⟩, hv, ?_⟩
        · exact hu (Splitting.splitOn_eq_singleton_iff.mp hs).1
        · rw [List.append_assoc]
          exact List.splitOn_append_cons_self ..
    case mpr =>
      rintro ⟨run, us, ⟨hn, hc⟩, hm, hw⟩
      by_cases hrun : run = []
      case pos =>
        subst hrun
        exact ⟨[], text, .inl rfl, hw ▸ hm, rfl⟩
      case neg =>
        obtain ⟨u, v, rfl, rfl, rfl⟩ := (Splitting.splitOn_eq_append_iff hrun (hm.ne_nil hne)).mp hw
        refine ⟨u ++ ['/'], v, .inr ⟨u, ?_, breaks_iff.mp hn, rfl⟩, hm, ?_⟩
        · rintro rfl
          exact hc (List.splitOn_nil _)
        · rw [List.append_assoc]
          rfl
  | inr hp =>
    have hna : p ≠ anySegments := fun h => hp (h ▸ List.infix_rfl)
    have hsl : pieces ('/' :: rest) = .letter (· = '/') :: pieces rest := by
      rw [pieces]
      all_goals
        intros
        simp_all
    rw [pieces_append hp (by simp), mem_segment_iff hs, PathMatch.segment_iff hna, hsl]
    simp only [Regex.mem_seq_cons_iff, Regex.mem_letter_iff, decide_eq_true_iff, hr]
    constructor
    case mp =>
      rintro ⟨t, _, ht, hn, ⟨_, v, ⟨_, rfl, rfl⟩, hv, rfl⟩, rfl⟩
      exact ⟨t, _, ht, hv, List.splitOn_append_cons_self_of_not_mem hn _⟩
    case mpr =>
      rintro ⟨t, us, ht, hm, hw⟩
      obtain ⟨u, v, rfl, hu, rfl⟩ := (Splitting.splitOn_eq_append_iff (List.cons_ne_nil t []) (hm.ne_nil hne)).mp hw
      obtain ⟨rfl, hn⟩ := Splitting.splitOn_eq_singleton_iff.mp hu
      exact ⟨u, _, ht, hn, ⟨_, v, ⟨_, rfl, rfl⟩, hm, rfl⟩, rfl⟩

-- What the whole expression matches. By induction on the segments of the pattern.
theorem intercalate_iff (hne : ps ≠ []) (hs : ∀ p ∈ ps, '/' ∉ p) (hp : ∀ p ∈ ps, p = anySegments ∨ ¬anySegments <:+: p) :
    text ∈ (Regex.seq (pieces (['/'].intercalate ps))).language ↔ PathMatch cleanRun ps (text.splitOn '/') := by
  induction ps generalizing text with
  | nil          => exact absurd rfl hne
  | cons p ps hi =>
    have ⟨hsp, hss⟩ := List.forall_mem_cons.mp hs
    have ⟨hpp, hps⟩ := List.forall_mem_cons.mp hp
    cases ps with
    | nil       =>
      rw [List.intercalate_singleton]
      exact last_iff hsp hpp
    | cons q ps =>
      rw [List.intercalate_cons_cons, List.append_assoc]
      exact cons_iff hsp hpp (List.cons_ne_nil q ps) fun _ => hi (List.cons_ne_nil q ps) hss hps

theorem globMatch_iff {pattern path : String} (h : WholeStars pattern) :
    globMatch pattern path ↔ PathMatch cleanRun (segments pattern) (segments path) := by
  have hl := @intercalate_iff _ path.toList (List.splitOn_ne_nil '/' pattern.toList)
    (fun _ => Splitting.not_mem_of_mem_splitOn) h
  rw [List.intercalate_splitOn] at hl
  exact Regex.fullmatch_iff.trans hl

end Languages

end Glob

section

open Glob

-- A pattern matches what it says on the paths that are without line breaks where two stars are, and without an
-- empty segment there or no segment at the end.
theorem globMatch_exact_iff {pattern path : String} (h : WholeStars pattern) :
    (globMatch pattern path ↔ PathMatch anyRun (segments pattern) (segments path)) ↔
      (PathMatch anyRun (segments pattern) (segments path) → PathMatch cleanRun (segments pattern) (segments path)) := by
  rw [globMatch_iff h]
  exact ⟨Iff.mpr, fun hc => ⟨fun hm => hm.mono fun _ _ _ => trivial, hc⟩⟩

private theorem wholeStars_trailing : WholeStars "a/**" := by
  have hs : segments "a/**" = [['a'], anySegments] := rfl
  unfold WholeStars
  rw [hs]
  decide

theorem globMatch_exact_iff_trailing :
    (globMatch "a/**" "a/b" ↔ PathMatch anyRun (segments "a/**") (segments "a/b")) ↔
      (PathMatch anyRun (segments "a/**") (segments "a/b") → PathMatch cleanRun (segments "a/**") (segments "a/b")) :=
  globMatch_exact_iff wholeStars_trailing

-- Two stars at the end do not match no segment.
theorem trailing_stars_need_segment :
    WholeStars "a/**" ∧ globMatch "a/**" "a" = false ∧ PathMatch anyRun (segments "a/**") (segments "a") := by
  have hstars : PathMatch anyRun [anySegments] ([] ++ []) := .any trivial .nil
  exact ⟨wholeStars_trailing, by decide, .segment (by decide) (.letter (by decide) .nil) hstars⟩

end
