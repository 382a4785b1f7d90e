import Covsight.Ncdb.Theorems.ScopeTree

-- Reading a scope tree that was written.

-- What a record keeps.

-- A location is stored if it has a file and a line.
def SourceInfo.stored (si : SourceInfo) : SourceInfo :=
  if si.file.isSome ∧ 0 ≤ si.line then { si with token := max 0 si.token } else ⟨none, -1, -1⟩

-- Attributes, tags and crossed coverpoints have members of their own.
def ScopeData.stored (d : ScopeData) : ScopeData where
  type    := d.type
  name    := d.name
  srcinfo := d.srcinfo.stored
  weight  := d.weight
  source  := d.source
  flags   := d.flags
  goal    := d.goal

-- A scope has one cover type and one at_least, those of its first item.
def storedItems : List CoverIndex → List CoverIndex
  | []           => []
  | first :: cis => (first :: cis).map fun ci =>
    ScopeTreeReader.coverItem first.data.type first.data.atLeast.toNat ci.name ci.data.data

-- The two sub-scopes that an FSM scope is created with take over its location, weight and flags.
def ScopeData.restored (parent : Option ScopeData) (d : ScopeData) : ScopeData :=
  match parent with
  | none   => d.stored
  | some p =>
    if p.type = .fsm ∧ (d.type = .fsmStates ∨ d.type = .fsmTrans) then
      { d.stored with srcinfo := p.srcinfo.stored, weight := p.weight, flags := p.flags }
    else
      d.stored

namespace Scope

mutual

-- What is read back of a scope below some parent. A toggle pair is stored as its name and two counts.
def restored (parent : Option ScopeData) : Scope → Scope
  | mk d is ss =>
    if (mk d is ss).isTogglePair then
      ScopeTreeReader.togglePair d.name (ScopeTreeWriter.countNamed is toggleBin0To1)
        (ScopeTreeWriter.countNamed is toggleBin1To0)
    else
      mk (d.restored parent) (storedItems is) (restoredAll (some d) ss)

def restoredAll (parent : Option ScopeData) : List Scope → List Scope
  | []      => []
  | s :: ss => s.restored parent :: restoredAll parent ss

end

theorem restoredAll_eq_map (parent : Option ScopeData) (ss : List Scope) :
    restoredAll parent ss = ss.map (restored parent) := by
  induction ss
  case nil          => rfl
  case cons s ss hi => rw [restoredAll, hi, List.map_cons]

-- The sub-scopes of an FSM scope start with the two it was created with; there are no others of
-- their types, and all items are in these two.
def FsmFormed (items : List CoverIndex) (scopes : List Scope) : Prop :=
  items = [] ∧ ∃ states transitions others, scopes = states :: transitions :: others ∧
    states.type = .fsmStates ∧ transitions.type = .fsmTrans ∧
    ∀ s ∈ others, s.type ≠ .fsmStates ∧ s.type ≠ .fsmTrans

mutual

-- What holds of a scope that is created through the database, below a parent of some type: it has
-- flags only if its class takes them, and an FSM scope is well formed.
def Built (parent : Option ScopeTypeT) : Scope → Prop
  | mk d is ss =>
    (takesFlags parent d.type = false → d.flags = 0) ∧ (d.type = .fsm → FsmFormed is ss) ∧
      BuiltAll (some d.type) ss

def BuiltAll (parent : Option ScopeTypeT) : List Scope → Prop
  | []      => True
  | s :: ss => s.Built parent ∧ BuiltAll parent ss

end

end Scope

namespace ScopeTreeWriter

variable {w w' : ScopeTreeWriter}

-- Writing only adds to the tables, and no string twice.
structure Extends (w w' : ScopeTreeWriter) : Prop where
  strings : w.strings <+: w'.strings
  files   : w.files <+: w'.files
  nodup   : w.strings.Nodup → w'.strings.Nodup

namespace Extends

theorem rfl : Extends w w :=
  ⟨List.prefix_rfl, List.prefix_rfl, id⟩

theorem trans {w'' : ScopeTreeWriter} (h : Extends w w') (h' : Extends w' w'') : Extends w w'' :=
  ⟨h.strings.trans h'.strings, h.files.trans h'.files, h'.nodup ∘ h.nodup⟩

theorem addString (w : ScopeTreeWriter) (s : String) : Extends w (w.addString s).snd :=
  ⟨intern.extends_table w.strings s, List.prefix_rfl, intern.nodup⟩

theorem addCounts (w : ScopeTreeWriter) (counts : Counts) : Extends w (w.addCounts counts) :=
  ⟨List.prefix_rfl, List.prefix_rfl, id⟩

theorem writeSource (w : ScopeTreeWriter) (si : SourceInfo) : Extends w (w.writeSource si).snd := by
  rw [ScopeTreeWriter.writeSource]
  split
  case h_1 => exact rfl
  case h_2 file _ =>
    split
    case isTrue  => exact rfl
    case isFalse => exact ⟨List.prefix_rfl, intern.extends_table w.files file, id⟩

theorem writeItems (w : ScopeTreeWriter) (items : List CoverIndex) :
    Extends w (w.writeItems items).snd := by
  induction items generalizing w
  case nil => exact rfl
  case cons item items hi => exact ((addString w item.name).trans (addCounts ..)).trans (hi _)

end Extends

end ScopeTreeWriter

namespace ScopeTreeReader

open ScopeTreeWriter (Extends)

variable {r : ScopeTreeReader} {w w' : ScopeTreeWriter}

-- A reader that knows the tables of a writer.
def Knows (r : ScopeTreeReader) (w : ScopeTreeWriter) : Prop :=
  w.strings <+: r.strings ∧ w.files <+: r.files

theorem Knows.of_extends (h : r.Knows w') (he : Extends w w') : r.Knows w :=
  ⟨he.strings.trans h.1, he.files.trans h.2⟩

theorem getElem?_addString {s : String} (h : r.Knows (w.addString s).snd) :
    r.strings[(w.addString s).fst]? = some s :=
  intern.get?_of_prefix h.1

theorem sourceInfo_writeSource {si : SourceInfo} (h : r.Knows (w.writeSource si).snd) :
    r.sourceInfo (w.writeSource si).fst = si.stored := by
  have ⟨file, line, token⟩ := si
  rw [ScopeTreeWriter.writeSource] at h ⊢
  cases file
  case none => rfl
  case some file =>
    simp only at h ⊢
    split at h
    case isTrue hl =>
      have hn : ¬0 ≤ line := by omega
      rw [if_pos hl]
      simp [sourceInfo, SourceInfo.stored, hn]
    case isFalse hl =>
      have hp : 0 ≤ line := by omega
      have hf : r.files[(intern w.files file).fst]? = some file := intern.get?_of_prefix h.2
      rw [if_neg hl]
      simp only [sourceInfo, ScopeTreeWriter.getFileId, hf]
      simp [SourceInfo.stored, hp, Int.max_comm 0]

-- Reading back the items of a scope takes exactly their counts.
theorem readItems_writeItems {items : List CoverIndex} (type : CoverTypeT) (atLeast : Nat)
    (h : r.Knows (w.writeItems items).snd) (rest : Counts) :
    (w.writeItems items).snd.counts = w.counts ++ items.map (·.data.data) ∧
    r.readItems type atLeast (w.writeItems items).fst (items.map (·.data.data) ++ rest)
      = some (items.map fun ci => coverItem type atLeast ci.name ci.data.data, rest) := by
  induction items generalizing w
  case nil => exact ⟨(List.append_nil _).symm, rfl⟩
  case cons item items hi =>
    have ⟨hc, hr⟩ := hi (w := (w.addString item.name).snd.addCounts [item.data.data]) h
    have hk := h.of_extends ((Extends.addCounts _ _).trans (Extends.writeItems _ items))
    refine ⟨?_, ?_⟩
    · refine hc.trans ?_
      simp [ScopeTreeWriter.addCounts, ScopeTreeWriter.addString]
    · have hn : r.strings[(w.addString item.name).fst]? = some item.name := getElem?_addString hk
      simp [ScopeTreeWriter.writeItems, readItems, hn, hr]

-- A number that is stored unless it has its default value is read back.
theorem presentVarint_getD {default v : Int} {n : Option Nat} (h : presentVarint default v = some n) :
    (n.map Int.ofNat).getD default = v := by
  rw [presentVarint] at h
  split at h
  case isTrue hd  => cases h; exact hd.symm
  case isFalse =>
    split at h <;> cases h
    simp only [Option.map_some, Option.getD_some, Int.ofNat_eq_natCast]
    omega

section Header

variable {s : Scope} {header : ScopeHeader}

-- What a successful write of a header went through.
theorem writeHeader_ok (h : w.writeHeader s = some (header, w')) :
    ∃ weight atLeast goal,
      presentVarint 1 s.data.weight = some weight ∧
      ScopeTreeWriter.atLeastOverride s.coverItems = some atLeast ∧
      presentVarint (-1) s.data.goal = some goal ∧
      header = {
        type       := s.type
        nameRef    := (w.addString s.name).fst
        flags      := if s.data.flags = 0 then none else some s.data.flags
        source     := ((w.addString s.name).snd.writeSource s.data.srcinfo).fst
        weight     := weight
        atLeast    := atLeast
        goal       := goal
        sourceType := if s.data.source = .none then none else some s.data.source
        coverType  := s.coverItems.head?.map (·.data.type)
      } ∧
      w' = ((w.addString s.name).snd.writeSource s.data.srcinfo).snd := by
  simp only [ScopeTreeWriter.writeHeader, Option.bind_eq_bind, Option.bind_eq_some_iff,
    Option.pure_def, Option.some.injEq, Prod.mk.injEq] at h
  obtain ⟨weight, hw, atLeast, ha, goal, hg, hh, he⟩ := h
  exact ⟨weight, atLeast, goal, hw, ha, hg, hh.symm, he.symm⟩

theorem extends_writeHeader (h : w.writeHeader s = some (header, w')) : Extends w w' := by
  have ⟨_, _, _, _, _, _, _, he⟩ := writeHeader_ok h
  rw [he]
  exact (Extends.addString ..).trans (Extends.writeSource ..)

theorem counts_writeHeader (h : w.writeHeader s = some (header, w')) : w'.counts = w.counts := by
  have ⟨_, _, _, _, _, _, _, he⟩ := writeHeader_ok h
  rw [he, ScopeTreeWriter.writeSource]
  split
  · rfl
  · split <;> rfl

theorem name_writeHeader (h : w.writeHeader s = some (header, w')) (hk : r.Knows w') :
    r.strings[header.nameRef]? = some s.name := by
  have ⟨_, _, _, _, _, _, hh, he⟩ := writeHeader_ok h
  rw [hh]
  exact getElem?_addString <| hk.of_extends <| he ▸ Extends.writeSource ..

-- The data of a scope whose class takes its flags is read back as it is stored.
theorem scopeData_writeHeader (h : w.writeHeader s = some (header, w')) (hk : r.Knows w')
    {parent : Option ScopeTypeT} (hf : takesFlags parent s.type = false → s.data.flags = 0) :
    r.scopeData parent header s.name = s.data.stored := by
  have ⟨weight, atLeast, goal, hw, _, hg, hh, he⟩ := writeHeader_ok h
  have hsrc := sourceInfo_writeSource (he ▸ hk)
  have hweight := presentVarint_getD hw
  have hgoal := presentVarint_getD hg
  rw [hh, scopeData, ScopeData.stored]
  simp only [hsrc, hgoal, ScopeData.mk.injEq, true_and, and_true]
  refine ⟨rfl, rfl, ?_, ?_, ?_⟩
  · rw [← hweight]
    cases weight <;> rfl
  · split
    case isTrue hs  => exact hs.symm
    case isFalse    => rfl
  · split
    case isFalse ht => exact (hf (by simpa using ht)).symm
    case isTrue     =>
      split
      case isTrue hz  => exact hz.symm
      case isFalse    => rfl

theorem readHeaderItems_write (h : w.writeHeader s = some (header, w'))
    (hk : r.Knows (w'.writeItems s.coverItems).snd) (rest : Counts) :
    r.readHeaderItems header (w'.writeItems s.coverItems).fst
        (s.coverItems.map (·.data.data) ++ rest) = some (storedItems s.coverItems, rest) := by
  obtain ⟨_, atLeast, _, _, ha, _, hh, _⟩ := writeHeader_ok h
  cases hc : s.coverItems
  case nil => simp [readHeaderItems, hh, hc, storedItems]
  case cons first cis =>
    obtain ⟨_, hr⟩ := readItems_writeItems first.data.type first.data.atLeast.toNat hk rest
    rw [hc, ScopeTreeWriter.atLeastOverride, List.head?_cons] at ha
    have hat := presentVarint_getD ha
    have hd : atLeast.getD (defaultAtLeast first.data.type) = first.data.atLeast.toNat := by
      cases atLeast <;> simp at hat ⊢ <;> omega
    rw [hc] at hr
    rw [hc] at hh
    simp only [readHeaderItems, hh, List.head?_cons, Option.map_some, hd]
    rw [hr, storedItems]

end Header

section Tree

open Scope (restored restoredAll_eq_map FsmFormed Built BuiltAll)

-- Creating scopes one after the other below a parent.
def addScopes (parent : Option ScopeTypeT) (siblings news : List Scope) : List Scope :=
  news.foldl (addScope parent) siblings

theorem addScopes_of_not_fsm {parent : Option ScopeTypeT} (h : parent ≠ some .fsm)
    (siblings news : List Scope) : addScopes parent siblings news = siblings ++ news := by
  induction news generalizing siblings
  case nil => exact (List.append_nil _).symm
  case cons s news hi =>
    rw [addScopes, List.foldl_cons, addScope, if_neg fun hc => h hc.1]
    exact (hi _).trans (by simp)

theorem addScopes_fsm {siblings news : List Scope}
    (h : ∀ s ∈ news, s.type ≠ .fsmStates ∧ s.type ≠ .fsmTrans) :
    addScopes (some .fsm) siblings news = siblings ++ news := by
  induction news generalizing siblings
  case nil => exact (List.append_nil _).symm
  case cons s news hi =>
    have ⟨hs, ht⟩ := h s (.head _)
    rw [addScopes, List.foldl_cons, addScope, if_neg fun hc => hc.2.elim hs ht]
    exact (hi fun s hm => h s (.tail _ hm)).trans (by simp)

@[simp]
theorem restored_type (parent : Option ScopeData) (s : Scope) :
    (s.restored parent).type = s.type := by
  obtain ⟨d, is, ss⟩ := s
  rw [restored]
  split
  case isTrue h =>
    simp only [Scope.isTogglePair, decide_eq_true_eq] at h
    exact h.1.symm
  case isFalse =>
    cases parent
    case none => rfl
    case some =>
      simp only [ScopeData.restored, Scope.type, Scope.data_mk]
      split <;> rfl

-- What a scope is read as does not depend on its parent, if that is no FSM scope or the scope is not
-- one of the two it is created with.
theorem restored_eq {parent : ScopeData} {s : Scope}
    (h : parent.type = .fsm → s.type ≠ .fsmStates ∧ s.type ≠ .fsmTrans) :
    s.restored (some parent) = s.restored none := by
  have ⟨d, is, ss⟩ := s
  have hn : ¬(parent.type = .fsm ∧ (d.type = .fsmStates ∨ d.type = .fsmTrans)) :=
    fun hc => hc.2.elim (h hc.1).1 (h hc.1).2
  rw [restored, restored]
  simp only [ScopeData.restored, if_neg hn]

-- A mandatory sub-scope takes over what is read for it.
theorem absorb_restored {d : ScopeData} {s : Scope} (hd : d.type = .fsm)
    (ht : s.type = .fsmStates ∨ s.type = .fsmTrans) {name : String} :
    Scope.absorb (.mk {
      type    := s.type
      name    := name
      srcinfo := d.srcinfo.stored
      weight  := d.weight
      flags   := d.flags
    } [] []) (s.restored none) = s.restored (some d) := by
  have hp : s.isTogglePair = false := by
    cases ht <;> simp [Scope.isTogglePair, *]
  obtain ⟨sd, is, ss⟩ := s
  have hs : d.type = .fsm ∧ (sd.type = .fsmStates ∨ sd.type = .fsmTrans) := ⟨hd, ht⟩
  rw [restored, restored, hp]
  simp only [Bool.false_eq_true, if_false, ScopeData.restored, if_pos hs, Scope.absorb,
    Scope.data_mk, Scope.coverItems_mk, Scope.scopes_mk, Scope.name, List.nil_append,
    ScopeData.stored, Scope.type]
  congr 2
  · split <;> simp [*]
  · split <;> simp [*]

theorem addScope_states {s s' new : Scope} (hs : s.type = .fsmStates) (hn : new.type = .fsmStates) :
    addScope (some .fsm) [s, s'] new = [s.absorb new, s'] := by
  rw [addScope, if_pos ⟨rfl, .inl hn⟩, absorbIn, if_pos (hs.trans hn.symm)]

theorem addScope_transitions {s s' new : Scope} (hs : s.type ≠ new.type) (hs' : s'.type = .fsmTrans)
    (hn : new.type = .fsmTrans) : addScope (some .fsm) [s, s'] new = [s, s'.absorb new] := by
  rw [addScope, if_pos ⟨rfl, .inr hn⟩, absorbIn, if_neg hs, absorbIn, if_pos (hs'.trans hn.symm)]

theorem addScopes_initialScopes {d : ScopeData} {is : List CoverIndex} {ss : List Scope}
    (h : d.type = .fsm → FsmFormed is ss) :
    addScopes (some d.type) (initialScopes d.stored (storedItems is)) (ss.map (restored none))
      = ss.map (restored (some d)) := by
  by_cases ht : d.type = .fsm
  case neg =>
    rw [addScopes_of_not_fsm (by simpa using ht), initialScopes,
      if_neg (show d.stored.type ≠ .fsm from ht), List.nil_append]
    exact List.map_congr_left fun s _ => (restored_eq fun hc => absurd hc ht).symm
  case pos =>
    obtain ⟨hi, states, transitions, others, he, hs, htr, ho⟩ := h ht
    have ha₁ := @absorb_restored d states ht (.inl hs) "UCIS:STATE"
    have ha₂ := @absorb_restored d transitions ht (.inr htr) "UCIS:TRANSITION"
    have hst : (states.restored none).type = .fsmStates := (restored_type ..).trans hs
    have htt : (transitions.restored none).type = .fsmTrans := (restored_type ..).trans htr
    rw [he, hi, ht, List.map_cons, List.map_cons, addScopes, List.foldl_cons, List.foldl_cons]
    have hinit : addScope (some .fsm) (addScope (some .fsm)
        (initialScopes d.stored (storedItems [])) (states.restored none)) (transitions.restored none)
          = [states.restored (some d), transitions.restored (some d)] := by
      rw [hs] at ha₁
      rw [htr] at ha₂
      have hne : (states.restored (some d)).type ≠ (transitions.restored none).type := by
        simp [hs, htr]
      rw [initialScopes, if_pos (show d.stored.type = .fsm from ht), fsmSubScopes]
      simp only [ScopeData.stored, storedItems, List.filter_nil]
      rw [addScope_states rfl hst, ha₁, addScope_transitions hne rfl htt, ha₂]
    have hothers : ∀ s ∈ others.map (restored none), s.type ≠ .fsmStates ∧ s.type ≠ .fsmTrans := by
      intro s hm
      obtain ⟨s', hm, hs'⟩ := List.mem_map.mp hm
      rw [← hs', restored_type]
      exact ho s' hm
    rw [hinit, List.map_cons, List.map_cons]
    refine (addScopes_fsm hothers).trans ?_
    rw [List.map_congr_left fun s hm => @restored_eq d s fun _ => ho s hm]
    rfl

mutual

theorem extends_writeScope : (s : Scope) → {w w' : ScopeTreeWriter} → {record : ScopeRecord} →
    w.writeScope s = some (record, w') → Extends w w'
  | .mk d is ss, w, w', record, h => by
    rw [ScopeTreeWriter.writeScope] at h
    split at h
    case isTrue =>
      cases h
      exact (Extends.addString ..).trans (Extends.addCounts ..)
    case isFalse =>
      simp only [Option.bind_eq_bind, Option.bind_eq_some_iff, Prod.exists, Option.pure_def,
        Option.some.injEq, Prod.mk.injEq] at h
      have ⟨_, _, hh, _, _, hs, _, he⟩ := h
      rw [← he]
      exact (extends_writeHeader hh).trans <| (Extends.writeItems ..).trans <|
        extends_writeScopes ss hs

theorem extends_writeScopes : (ss : List Scope) → {w w' : ScopeTreeWriter} →
    {records : List ScopeRecord} → w.writeScopes ss = some (records, w') → Extends w w'
  | [], w, w', records, h => by
    cases h
    exact Extends.rfl
  | s :: ss, w, w', records, h => by
    simp only [ScopeTreeWriter.writeScopes, Option.bind_eq_bind, Option.bind_eq_some_iff,
      Prod.exists, Option.pure_def, Option.some.injEq, Prod.mk.injEq] at h
    have ⟨_, _, h₁, _, _, h₂, _, he⟩ := h
    rw [← he]
    exact (extends_writeScope s h₁).trans (extends_writeScopes ss h₂)

end

mutual

-- The counts that a written scope adds are those that reading its record takes; what is read is what
-- the record keeps.
theorem readScope_writeScope : (s : Scope) → {w w' : ScopeTreeWriter} → {record : ScopeRecord} →
    {parent : Option ScopeTypeT} → s.Built parent → w.writeScope s = some (record, w') →
    r.Knows w' → ∃ counts, w'.counts = w.counts ++ counts ∧
      ∀ rest, r.readScope parent record (counts ++ rest) = some (s.restored none, rest)
  | .mk d is ss, w, w', record, parent, hb, h, hk => by
    rw [ScopeTreeWriter.writeScope] at h
    rw [restored]
    split at h
    case isTrue hp =>
      have he := Option.some.inj h
      have hr : record = .togglePair (w.addString d.name).fst := (congrArg Prod.fst he).symm
      have hw : w' = (w.addString d.name).snd.addCounts _ := (congrArg Prod.snd he).symm
      have hn : r.strings[(w.addString d.name).fst]? = some d.name :=
        getElem?_addString <| (hw ▸ hk).of_extends (Extends.addCounts ..)
      rw [if_pos hp, hw, hr]
      refine ⟨_, rfl, fun rest => ?_⟩
      simp [readScope, hn]
    case isFalse hp =>
      rw [if_neg hp]
      simp only [Option.bind_eq_bind, Option.bind_eq_some_iff, Prod.exists, Option.pure_def,
        Option.some.injEq, Prod.mk.injEq] at h
      have ⟨header, w₁, hh, records, w₂, hs, hr, he⟩ := h
      rw [Built] at hb
      have ⟨hf, hfsm, hbs⟩ := hb
      rw [← he] at hk ⊢
      have hk₁ := hk.of_extends <| extends_writeScopes ss hs
      have hk₀ := hk₁.of_extends (Extends.writeItems ..)
      have ⟨counts, hc, hread⟩ := readScopes_writeScopes ss hbs hs hk
      have ⟨hci, _⟩ := readItems_writeItems (r := r) .cvgBin 0 hk₁ []
      refine ⟨is.map (·.data.data) ++ counts, ?_, fun rest => ?_⟩
      · rw [hc, hci, counts_writeHeader hh, List.append_assoc]
      · have hname := name_writeHeader hh hk₀
        have hitems := readHeaderItems_write hh hk₁ (counts ++ rest)
        have hdata := scopeData_writeHeader hh hk₀ hf
        have htype : header.type = d.type := by
          have ⟨_, _, _, _, _, _, hh, _⟩ := writeHeader_ok hh
          rw [hh]
          rfl
        simp only [Scope.coverItems_mk, Scope.name, Scope.data_mk] at hname hitems hdata
        rw [← hr, readScope, List.append_assoc, hname]
        simp only [Option.bind_eq_bind, Option.bind_some, hitems, hdata, htype, hread,
          addScopes_initialScopes hfsm, Option.pure_def, restoredAll_eq_map]
        refine congrArg (fun s => some (s, rest)) ?_
        rw [Scope.create]
        split
        case isTrue ht => rw [(hfsm ht).1]; rfl
        case isFalse   => rfl

theorem readScopes_writeScopes : (ss : List Scope) → {w w' : ScopeTreeWriter} →
    {records : List ScopeRecord} → {parent : Option ScopeTypeT} → BuiltAll parent ss →
    w.writeScopes ss = some (records, w') → r.Knows w' →
    ∃ counts, w'.counts = w.counts ++ counts ∧
      ∀ siblings rest, r.readScopes parent siblings records (counts ++ rest)
        = some (addScopes parent siblings (ss.map (restored none)), rest)
  | [], w, w', records, parent, _, h, _ => by
    cases h
    exact ⟨[], (List.append_nil _).symm, fun _ _ => rfl⟩
  | s :: ss, w, w', records, parent, hb, h, hk => by
    simp only [ScopeTreeWriter.writeScopes, Option.bind_eq_bind, Option.bind_eq_some_iff,
      Prod.exists, Option.pure_def, Option.some.injEq, Prod.mk.injEq] at h
    have ⟨record, w₁, h₁, records', w₂, h₂, hr, he⟩ := h
    rw [BuiltAll] at hb
    rw [← he] at hk ⊢
    have hk₁ := hk.of_extends <| extends_writeScopes ss h₂
    have ⟨counts₁, hc₁, hr₁⟩ := readScope_writeScope s hb.1 h₁ hk₁
    have ⟨counts₂, hc₂, hr₂⟩ := readScopes_writeScopes ss hb.2 h₂ hk
    refine ⟨counts₁ ++ counts₂, by rw [hc₂, hc₁, List.append_assoc], fun siblings rest => ?_⟩
    rw [← hr, readScopes, List.append_assoc, hr₁]
    exact hr₂ ..

end

end Tree

end ScopeTreeReader
