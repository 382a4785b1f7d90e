import Covsight.NcdbC.Theorems.CrossRead
import Covsight.NcdbC.Theorems.ScopeTree
import Mathlib.Data.List.Dedup

-- Which trees of the C library the reader of the Python implementation reads as the library does.

namespace RawScope

open ScopeTypeT (fsm fsmStates fsmTrans)

def isStates (s : RawScope) : Bool :=
  s.type = fsmStates.value

def isTrans (s : RawScope) : Bool :=
  s.type = fsmTrans.value

def isOther (s : RawScope) : Bool :=
  !s.isStates && !s.isTrans

-- The sub-scopes of an FSM scope that are read back in place: states, then transitions, then others.
def FsmFormed (types : List Nat) : Prop :=
  ∃ rest, types = fsmStates.value :: fsmTrans.value :: rest ∧
    ∀ t ∈ rest, t ≠ fsmStates.value ∧ t ≠ fsmTrans.value

@[simp]
theorem type_absorb (old new : RawScope) : (old.absorb new).type = old.type :=
  rfl

theorem absorb_empty {name : String} {type : Nat} {new : RawScope} (h : new.type = type) :
    (mk type name [] []).absorb new = new := by
  have ⟨_, _, _, _⟩ := new
  cases h
  rfl

theorem foldl_add_of_ne {parent : Option Nat} (h : parent ≠ some fsm.value) (siblings xs : List RawScope) :
    xs.foldl (add parent) siblings = siblings ++ xs := by
  induction xs generalizing siblings
  case nil => exact (List.append_nil _).symm
  case cons x xs hi =>
    rw [List.foldl_cons, hi, add, if_neg fun hc => h hc.1, List.append_assoc, List.singleton_append]

theorem add_fsm {states trans : RawScope} (hs : states.isStates) (ht : trans.isTrans)
    (others : List RawScope) (x : RawScope) :
    add (some fsm.value) (states :: trans :: others) x =
      if x.isStates then states.absorb x :: trans :: others
      else if x.isTrans then states :: trans.absorb x :: others
      else states :: trans :: (others ++ [x]) := by
  have hs : states.type = fsmStates.value := of_decide_eq_true hs
  have ht : trans.type = fsmTrans.value := of_decide_eq_true ht
  have hne : fsmStates.value ≠ fsmTrans.value := by decide
  rw [add]
  by_cases hx : x.type = fsmStates.value
  case pos => simp [isStates, hx, absorbIn, hs]
  case neg =>
    by_cases hx' : x.type = fsmTrans.value
    case pos => simp [isStates, isTrans, hx', absorbIn, hs, ht, hne, hne.symm]
    case neg => simp [isStates, isTrans, hx, hx']

theorem foldl_add_fsm {states trans : RawScope} (hs : states.isStates) (ht : trans.isTrans)
    (others xs : List RawScope) :
    xs.foldl (add (some fsm.value)) (states :: trans :: others) =
      (xs.filter isStates).foldl absorb states :: (xs.filter isTrans).foldl absorb trans ::
        (others ++ xs.filter isOther) := by
  induction xs generalizing states trans others
  case nil => simp
  case cons x xs hi =>
    rw [List.foldl_cons, add_fsm hs ht]
    by_cases hx : x.isStates
    case pos =>
      have hn : x.isTrans = false := by
        have hx : x.type = fsmStates.value := of_decide_eq_true hx
        rw [isTrans, hx]
        rfl
      rw [if_pos hx, hi (by exact hs) ht]
      simp [isOther, hx, hn]
    case neg =>
      by_cases hx' : x.isTrans
      case pos =>
        rw [if_neg hx, if_pos hx', hi hs (by exact ht)]
        simp [isOther, hx, hx']
      case neg =>
        rw [if_neg hx, if_neg hx', hi hs ht]
        simp [isOther, hx, hx']

@[simp]
theorem type_foldl_absorb (old : RawScope) (xs : List RawScope) : (xs.foldl absorb old).type = old.type := by
  induction xs generalizing old
  case nil          => rfl
  case cons x xs hi => exact hi _

theorem foldl_add_of_fsmFormed {xs : List RawScope} (h : FsmFormed (xs.map (·.type))) :
    xs.foldl (add (some fsm.value)) (fsmScopes []) = xs := by
  have ⟨rest, htypes, hrest⟩ := h
  obtain ⟨states, xs', rfl, hs, htypes⟩ := List.map_eq_cons_iff.mp htypes
  obtain ⟨trans, others, rfl, ht, ho⟩ := List.map_eq_cons_iff.mp htypes
  have hs₁ : states.isStates := decide_eq_true hs
  have ht₁ : trans.isTrans := decide_eq_true ht
  have hs₂ : states.isTrans = false := by
    rw [isTrans, hs]
    rfl
  have ht₂ : trans.isStates = false := by
    rw [isStates, ht]
    rfl
  have hother : ∀ o ∈ others, o.type ≠ fsmStates.value ∧ o.type ≠ fsmTrans.value := by
    intro o hm
    exact hrest o.type (ho ▸ List.mem_map_of_mem hm)
  have hstates : others.filter isStates = [] :=
    List.filter_eq_nil_iff.mpr fun o hm => by simp [isStates, (hother o hm).1]
  have htrans : others.filter isTrans = [] :=
    List.filter_eq_nil_iff.mpr fun o hm => by simp [isTrans, (hother o hm).2]
  have hothers : others.filter isOther = others :=
    List.filter_eq_self.mpr fun o hm => by simp [isOther, isStates, isTrans, hother o hm]
  rw [fsmScopes, List.filter_nil, List.filter_nil, foldl_add_fsm rfl rfl]
  simp [hs₁, hs₂, ht₁, ht₂, hstates, htrans, hothers, isOther, absorb_empty hs, absorb_empty ht]

-- An FSM scope without items of its own is read back exactly if its sub-scopes are formed and each of
-- them is.
theorem foldl_add_fsm_iff {xs ys : List RawScope} (h : ys.map (·.type) = xs.map (·.type)) :
    xs.foldl (add (some fsm.value)) (fsmScopes []) = ys ↔ FsmFormed (xs.map (·.type)) ∧ xs = ys := by
  constructor
  case mpr => exact fun ⟨hf, he⟩ => (foldl_add_of_fsmFormed hf).trans he
  case mp =>
    intro he
    have hf : FsmFormed (xs.map (·.type)) := by
      rw [← h, ← he, fsmScopes, foldl_add_fsm rfl rfl]
      refine ⟨(xs.filter isOther).map (·.type), ?_, fun t ht => ?_⟩
      · rw [List.map_cons, List.map_cons, type_foldl_absorb, type_foldl_absorb]
        rfl
      · have ⟨x, hx, ht⟩ := List.mem_map.mp ht
        have hx := (List.mem_filter.mp hx).2
        simpa [isOther, isStates, isTrans, ht] using hx
    exact ⟨hf, (foldl_add_of_fsmFormed hf).symm.trans he⟩

end RawScope

namespace NcdbScope

open ScopeTypeT (fsm)

-- The types of some scopes.
def types (ss : List NcdbScope) : List Nat :=
  ss.map (·.data.type.toNat)

mutual

-- A scope that is read back as it is in a scope of some type: an instance does not take its type for
-- another one, and an FSM scope has just the sub-scopes that it is created with, and no items.
def ReadAlike (parent : Option Nat) : NcdbScope → Prop
  | mk d cs ss =>
    createdType parent d.type.toNat = d.type.toNat ∧
    (d.type.toNat = fsm.value → cs = [] ∧ RawScope.FsmFormed (types ss)) ∧
    ReadAlikeAll (some d.type.toNat) ss

def ReadAlikeAll (parent : Option Nat) : List NcdbScope → Prop
  | []      => True
  | s :: ss => s.ReadAlike parent ∧ ReadAlikeAll parent ss

end

theorem crossReadAll_eq_foldl (parent : Option Nat) (siblings : List RawScope) (ss : List NcdbScope) :
    crossReadAll parent siblings ss
      = (ss.map (·.crossRead parent)).foldl (RawScope.add parent) siblings := by
  induction ss generalizing siblings
  case nil          => rfl
  case cons s ss hi => exact hi _

theorem type_crossRead (parent : Option Nat) (s : NcdbScope) :
    (s.crossRead parent).type = createdType parent s.data.type.toNat := by
  cases s
  rw [crossRead]
  rfl

theorem map_type_rawAll (ss : List NcdbScope) : (rawAll ss).map (·.type) = types ss := by
  induction ss
  case nil => rfl
  case cons s ss hi =>
    obtain ⟨_, _, _⟩ := s
    rw [rawAll, List.map_cons, hi]
    rfl

theorem length_rawAll (ss : List NcdbScope) : (rawAll ss).length = ss.length := by
  have hl := congrArg List.length (map_type_rawAll ss)
  rwa [List.length_map, types, List.length_map] at hl

theorem types_crossRead_fsm (ss : List NcdbScope) :
    (ss.map (·.crossRead (some fsm.value))).map (·.type) = types ss := by
  rw [List.map_map]
  refine List.map_congr_left fun s _ => ?_
  rw [Function.comp_apply, type_crossRead, createdType, if_neg fun h => absurd h.1 (by decide)]

mutual

theorem crossRead_eq_raw_iff : (s : NcdbScope) → (parent : Option Nat) →
    (s.crossRead parent = s.raw ↔ s.ReadAlike parent)
  | mk d cs ss, parent => by
    have hss := crossReadAll_eq_rawAll_iff ss (some d.type.toNat)
    rw [crossRead, raw, ReadAlike, ← hss]
    simp only [RawScope.create, RawScope.mk.injEq, true_and]
    refine and_congr_right fun ht => ?_
    rw [ht, RawScope.initialScopes, crossReadAll_eq_foldl]
    by_cases hf : d.type.toNat = fsm.value
    case neg =>
      have hp : some d.type.toNat ≠ some fsm.value := fun h => hf (Option.some.inj h)
      rw [if_neg hf, if_neg hf, RawScope.foldl_add_of_ne hp]
      simp [hf]
    case pos =>
      rw [if_pos hf, if_pos hf, hf]
      cases cs
      case cons => simp
      case nil  =>
        have htypes := types_crossRead_fsm ss
        have hiff := RawScope.foldl_add_fsm_iff ((map_type_rawAll ss).trans htypes.symm)
        rw [htypes] at hiff
        simpa using hiff

theorem crossReadAll_eq_rawAll_iff : (ss : List NcdbScope) → (parent : Option Nat) →
    (ss.map (·.crossRead parent) = rawAll ss ↔ ReadAlikeAll parent ss)
  | [],      parent => by simp [rawAll, ReadAlikeAll]
  | s :: ss, parent => by
    rw [List.map_cons, rawAll, List.cons.injEq, crossRead_eq_raw_iff s, crossReadAll_eq_rawAll_iff ss,
      ReadAlikeAll]

end

theorem type_restored (s : NcdbScope) : s.restored.data.type.toNat = s.data.type.toNat := by
  obtain ⟨d, cs, ss⟩ := s
  rw [restored]
  split
  case isTrue ht => rw [(covers_of_isTogglePair ht).1]; rfl
  case isFalse   => rfl

@[simp]
theorem types_restoredAll (ss : List NcdbScope) : types (restoredAll ss) = types ss := by
  induction ss
  case nil => rfl
  case cons s ss hi =>
    rw [restoredAll, types, types, List.map_cons, List.map_cons]
    exact congrArg₂ List.cons s.type_restored hi

mutual

-- What comes out of a stream is read back alike if what went in is.
theorem readAlike_restored_iff : (s : NcdbScope) → (parent : Option Nat) →
    (s.restored.ReadAlike parent ↔ s.ReadAlike parent)
  | mk d cs ss, parent => by
    by_cases ht : (mk d cs ss).isTogglePair
    case pos =>
      have ⟨htype, hs, _⟩ := covers_of_isTogglePair ht
      change d.type = ncdbScopeBranch at htype
      change ss = [] at hs
      have hb := NcdbTables.createdType_branch parent
      have hn : ncdbScopeBranch.toNat ≠ fsm.value := by decide
      rw [restored, if_pos ht, NcdbTables.readTogglePair, ReadAlike, ReadAlike, htype, hs]
      simp [hb, hn, ReadAlikeAll]
    case neg =>
      have hc : restoredCovers cs = [] ↔ cs = [] := by cases cs <;> simp [restoredCovers]
      rw [restored, if_neg ht, ReadAlike, ReadAlike, hc, types_restoredAll]
      exact and_congr_right fun _ => and_congr_right fun _ => readAlikeAll_restoredAll_iff ss _

theorem readAlikeAll_restoredAll_iff : (ss : List NcdbScope) → (parent : Option Nat) →
    (ReadAlikeAll parent (restoredAll ss) ↔ ReadAlikeAll parent ss)
  | [],      parent => Iff.rfl
  | s :: ss, parent => by
    rw [restoredAll, ReadAlikeAll, ReadAlikeAll, readAlike_restored_iff s, readAlikeAll_restoredAll_iff ss]

end

end NcdbScope

-- Decoding what comes before other bytes.
theorem decodeAll_mapM {α β : Type} {decode : List UInt8 → Option (β × List UInt8)}
    {encode : α → List UInt8} {f : α → Option β} {xs : List α}
    (h : ∀ x ∈ xs, ∀ rest, decode (encode x ++ rest) = (f x).map (·, rest))
    (hn : ∀ x ∈ xs, encode x ≠ []) (k : Nat) (rest : List UInt8) :
    decodeAll decode (xs.length + k) (xs.flatMap encode ++ rest)
      = (xs.mapM f).bind fun ys => (decodeAll decode k rest).map (ys ++ ·) := by
  induction xs
  case nil => simp
  case cons x xs hi =>
    have hx := h x (.head _) (xs.flatMap encode ++ rest)
    have hi := hi (fun x hx => h x (.tail _ hx)) fun x hx => hn x (.tail _ hx)
    have ⟨b, bs, hb⟩ := List.exists_cons_of_ne_nil (hn x (.head _))
    have hl : (x :: xs).length + k = xs.length + k + 1 := by rw [List.length_cons]; omega
    rw [List.flatMap_cons, List.append_assoc, hl]
    rw [hb, List.cons_append] at hx ⊢
    rw [decodeAll, hx, List.mapM_cons]
    · cases f x
      case none   => rfl
      case some y =>
        simp only [Option.map_some, Option.bind_eq_bind, Option.bind_some, hi]
        cases xs.mapM f
        case none    => rfl
        case some ys => cases decodeAll decode k rest <;> rfl
    · exact List.cons_ne_nil _ _

-- The names of a table that strings were interned in.

theorem nodup_internNames {table : List String} (names : List String) (h : table.Nodup) :
    (internNames table names).Nodup := by
  induction names generalizing table
  case nil             => exact h
  case cons name names hi => exact hi (intern.nodup h)

theorem mem_internNames {table names : List String} {x : String} (h : x ∈ internNames table names) :
    x ∈ table ++ names := by
  induction names generalizing table
  case nil => exact List.mem_append_left _ h
  case cons name names hi =>
    have hx := hi h
    rw [List.mem_append] at hx
    cases hx
    case inr hx => exact List.mem_append_right _ (.tail _ hx)
    case inl hx =>
      have hx : x ∈ (intern table name).snd := hx
      rw [intern] at hx
      split at hx
      case isTrue  => exact List.mem_append_left _ hx
      case isFalse =>
        cases List.mem_append.mp hx
        case inl hx => exact List.mem_append_left _ hx
        case inr hx => exact List.mem_append_right _ (List.mem_singleton.mp hx ▸ .head _)

-- A table without repetitions is no longer than the names it was made of.
theorem length_internNames_le (names : List String) :
    (internNames [""] names).length ≤ ("" :: names).dedup.length := by
  have hs : internNames [""] names ⊆ ("" :: names).dedup :=
    fun x hx => List.mem_dedup.mpr (mem_internNames hx)
  exact (List.subperm_of_subset (nodup_internNames names (List.nodup_singleton _)) hs).length_le

namespace NcdbScope

mutual

theorem name_mem_streamNames : (s : NcdbScope) → ∀ t ∈ s.dfs, t.data.name ∈ s.streamNames
  | mk d cs ss, t, ht => by
    rw [streamNames]
    cases ht
    case head    => exact .head _
    case tail ht => exact .tail _ (List.mem_append_right _ (name_mem_streamNamesAll ss t ht))

theorem name_mem_streamNamesAll : (ss : List NcdbScope) → ∀ t ∈ dfsAll ss, t.data.name ∈ streamNamesAll ss
  | s :: ss, t, ht => by
    rw [streamNamesAll]
    cases List.mem_append.mp ht
    case inl ht => exact List.mem_append_left _ (name_mem_streamNames s t ht)
    case inr ht => exact List.mem_append_right _ (name_mem_streamNamesAll ss t ht)

end

end NcdbScope

theorem subset_internNames (table names : List String) : table ⊆ internNames table names := by
  induction names generalizing table
  case nil => exact List.Subset.refl _
  case cons name names hi => exact fun x hx => hi _ ((intern.extends_table table name).subset hx)

theorem names_subset_internNames (table names : List String) : names ⊆ internNames table names := by
  induction names generalizing table
  case nil => exact List.nil_subset _
  case cons name names hi =>
    have hname := List.mem_of_getElem? (intern.get? table name)
    exact List.cons_subset.mpr ⟨subset_internNames _ names hname, hi _⟩

namespace NcdbWriter

-- The names of design units are in the table already.
theorem addDuNames_strings {w : NcdbWriter} {dus : List (String × Nat)} (h : ∀ du ∈ dus, du.fst ∈ w.strings) :
    (w.addDuNames dus).snd.strings = w.strings := by
  induction dus generalizing w
  case nil => rfl
  case cons du dus hi =>
    have ⟨hdu, hdus⟩ := List.forall_mem_cons.mp h
    have hw : ((w.addString du.fst).getD (-1, w)).snd.strings = w.strings := by
      cases hs : w.addString du.fst
      case none   => rfl
      case some p =>
        have hname := (addString_eq (show w.addString du.fst = some (p.fst, p.snd) from hs)).1
        rw [intern, if_pos hdu] at hname
        exact hname
    have hi := @hi ((w.addString du.fst).getD (-1, w)).snd (by rwa [hw])
    rw [hw] at hi
    exact hi

end NcdbWriter

namespace Ncdb

-- The strings that a stream needs, with the empty one that a table starts with.
def streamNames (db : Ncdb) : List String :=
  "" :: NcdbScope.streamNamesAll db.roots

-- The stream is read as the library reads it, or refused.
def CrossReads (out : NcdbScopeTree) : Prop :=
  ∀ scopes, (ScopeTreeReader.mk out.strings out.sources).readRaw out.data (out.counts.map (·.toNat))
      = some scopes →
    ∃ roots, scopeTreeDeserialize out.toNcdbTables out.data out.counts = some roots ∧
      scopes = NcdbScope.rawAll roots

variable {db : Ncdb} {out : NcdbScopeTree}

-- What a stream without unknown fields is made of.
theorem scopeTreeSerialize_known (hk : ∀ s ∈ db.dfsFlatten, s.Known)
    (h : db.scopeTreeSerialize [""] = some out) :
    ∃ records trailer,
      out.data = NcdbScopeRecord.encodeAll records ++ trailer ∧
      (db.collectDus = [] → trailer = []) ∧
      (db.collectDus ≠ [] → ∃ entries, trailer
        = encodeTrailer (NcdbScopeRecord.encodeAll records).length entries) ∧
      NcdbScopeRecord.FormedAll records ∧ NcdbScopeRecord.KnownAll records ∧
      ((NcdbScopeRecord.rawAll records).isSome ↔ ∀ s ∈ db.dfsFlatten, s.LanguageNamed) ∧
      NcdbScopeRecord.RefsInAll out.strings.length records ∧
      out.strings.length ≤ db.streamNames.dedup.length ∧
      out.toNcdbTables.readScopes records out.counts = (NcdbScope.restoredAll db.roots, []) := by
  obtain ⟨⟨records, w⟩, hw, h⟩ := Option.bind_eq_some_iff.mp h
  obtain ⟨hl, ho⟩ := Option.ite_none_right_eq_some.mp h
  cases ho
  have hdfs := NcdbScope.length_dfsAll_le _ hw
  have hn : db.dfsFlatten.length < sizeLimit := by
    rw [List.length_append] at hl
    rw [Ncdb.dfsFlatten]
    omega
  have hs := NcdbWriter.writeScopes_wrote hn _ hw
  have hknown := NcdbWriter.writeScopes_known db.roots hk hw
  obtain ⟨htrailer, hnone, hsome⟩ :=
    NcdbWriter.writeScopeTrailer_ok db w (NcdbScopeRecord.encodeAll records).length
  obtain ⟨counts, hread⟩ := hs.stored
  obtain ⟨_, hrefs⟩ := hknown.refs
  have hcounts : (w.writeScopeTrailer db (NcdbScopeRecord.encodeAll records).length).snd.counts = counts :=
    (hread.trans htrailer).counts.trans (by simp)
  have hstrings : (w.writeScopeTrailer db (NcdbScopeRecord.encodeAll records).length).snd.strings
      = internNames [""] (NcdbScope.streamNamesAll db.roots) := by
    rw [← hknown.strings, NcdbWriter.writeScopeTrailer]
    split
    · rfl
    · refine NcdbWriter.addDuNames_strings fun du hdu => ?_
      obtain ⟨⟨s, i⟩, hs, hdu⟩ := List.mem_filterMap.mp hdu
      obtain ⟨_, hdu⟩ := Option.ite_none_right_eq_some.mp hdu
      have hs : s ∈ db.dfsFlatten := List.fst_mem_of_mem_zipIdx hs
      rw [hknown.strings, ← Option.some.inj hdu]
      exact names_subset_internNames _ _ (NcdbScope.name_mem_streamNamesAll _ s hs)
  refine ⟨records, _, rfl, hnone, hsome, hs.formed, hknown.known, hknown.raw, ?_, ?_, ?_⟩
  · exact hrefs.reads _ htrailer.tables
  · exact Nat.le_trans (Nat.le_of_eq (congrArg List.length hstrings)) (length_internNames_le _)
  · have hr := hread.reads _ htrailer.tables []
    rw [List.append_nil] at hr
    exact (congrArg _ hcounts).trans hr

end Ncdb

-- The index of design units as it looks to a reader that does not know of it: one more scope, whose
-- name has the number of a letter.

def RawRecord.nameRef : RawRecord → Nat
  | togglePair ref        => ref
  | regular _ ref _ _ _ => ref

theorem RawRecord.decodeHeader_nameRef {bytes bytes₁ bytes₂ rest : List UInt8} {type ref : Nat}
    {header : Nat × Nat} (ht : decodeVarint bytes = some (type, bytes₁))
    (hr : decodeVarint bytes₁ = some (ref, bytes₂)) (h : decodeHeader bytes = some (header, rest)) :
    header.snd = ref := by
  simp only [decodeHeader, ht, hr, Option.bind_eq_bind, Option.bind_some, Option.bind_eq_some_iff,
    Option.pure_def, Option.some.injEq, Prod.mk.injEq] at h
  have ⟨_, _, _, _, _, _, _, _, _, _, _, _, _, _, hh, _⟩ := h
  rw [← hh]

theorem RawRecord.nameRef_of_decode_trailer {fuel : Nat} {bytes rest : List UInt8} {r : RawRecord}
    (h : decode fuel (trailerMagic ++ bytes) = some (r, rest)) : r.nameRef = 82 := by
  cases fuel
  case zero => cases h
  case succ fuel =>
    have hd : trailerMagic ++ bytes = 0x4E :: 0x54 :: 0x52 :: 0x4C :: bytes := rfl
    have ht : decodeVarint (0x54 :: 0x52 :: 0x4C :: bytes) = some (84, 0x52 :: 0x4C :: bytes) := rfl
    have hr : decodeVarint (0x52 :: 0x4C :: bytes) = some (82, 0x4C :: bytes) := rfl
    rw [hd, decode, if_neg (by decide)] at h
    obtain ⟨⟨header, _⟩, hh, h⟩ := Option.bind_eq_some_iff.mp h
    obtain ⟨_, _, h⟩ := Option.bind_eq_some_iff.mp h
    obtain ⟨_, _, h⟩ := Option.bind_eq_some_iff.mp h
    obtain ⟨_, _, h⟩ := Option.bind_eq_some_iff.mp h
    obtain ⟨_, _, h⟩ := Option.bind_eq_some_iff.mp h
    obtain ⟨_, _, h⟩ := Option.bind_eq_some_iff.mp h
    cases h
    exact decodeHeader_nameRef ht hr hh

theorem ScopeTreeReader.nameRef_lt_of_readRawScopes {r : ScopeTreeReader} {parent : Option Nat}
    {siblings ss : List RawScope} {records : List RawRecord} {counts rest : Counts}
    (h : r.readRawScopes parent siblings records counts = some (ss, rest)) :
    ∀ record ∈ records, record.nameRef < r.strings.length := by
  induction records generalizing siblings counts
  case nil => exact nofun
  case cons record records hi =>
    have ⟨⟨s, counts₁⟩, hs, h⟩ := Option.bind_eq_some_iff.mp h
    refine List.forall_mem_cons.mpr ⟨?_, hi h⟩
    cases record
    case togglePair =>
      have ⟨_, hn, _⟩ := Option.bind_eq_some_iff.mp hs
      exact (List.getElem?_eq_some_iff.mp hn).1
    case regular =>
      have ⟨_, hn, _⟩ := Option.bind_eq_some_iff.mp hs
      exact (List.getElem?_eq_some_iff.mp hn).1

namespace NcdbScopeRecord

-- The records of a stream, with what comes behind them.
theorem raw_decodeAll_encodeAll {records : List NcdbScopeRecord} (hf : FormedAll records)
    (hk : KnownAll records) {fuel : Nat} (rest : List UInt8)
    (hl : (encodeAll records).length + rest.length ≤ fuel) :
    ∃ k, rest.length ≤ k ∧ decodeAll (RawRecord.decode fuel) fuel (encodeAll records ++ rest)
      = (rawAll records).bind fun rs => (decodeAll (RawRecord.decode fuel) k rest).map (rs ++ ·) := by
  have hd : ∀ r ∈ records, ∀ rest, RawRecord.decode fuel (r.encode ++ rest) = r.raw.map (·, rest) := by
    intro r hm
    have hle := length_encode_le hm
    exact raw_decode_encode (hf.of_mem hm) (hk.of_mem hm) (by omega)
  have hn := length_le_encodeAll records
  have hall := decodeAll_mapM hd (fun r _ => encode_ne_nil r) (fuel - records.length) rest
  rw [Nat.add_sub_cancel' (by omega), ← encodeAll_eq_flatMap, ← rawAll_eq_mapM] at hall
  exact ⟨fuel - records.length, by omega, hall⟩

end NcdbScopeRecord

namespace Ncdb

variable {db : Ncdb} {out : NcdbScopeTree}

-- A stream that ends in an index of design units is refused, as long as no string has the number
-- that the reader takes for a name.
theorem readRaw_eq_none_of_trailer {main : List UInt8} {records : List NcdbScopeRecord} {offset : Nat}
    {entries : List (UInt64 × UInt64)} (hf : NcdbScopeRecord.FormedAll records)
    (hk : NcdbScopeRecord.KnownAll records) (hm : main = NcdbScopeRecord.encodeAll records)
    {r : ScopeTreeReader} (hs : r.strings.length ≤ 82) (counts : Counts) :
    r.readRaw (main ++ encodeTrailer offset entries) counts = none := by
  obtain ⟨k, hl, hd⟩ := NcdbScopeRecord.raw_decodeAll_encodeAll hf hk (encodeTrailer offset entries)
    (Nat.le_of_eq List.length_append.symm)
  rw [← hm] at hd
  rw [Option.eq_none_iff_forall_ne_some]
  intro ss h
  obtain ⟨all, hall, h⟩ := Option.bind_eq_some_iff.mp h
  obtain ⟨⟨_, _⟩, h, _⟩ := Option.bind_eq_some_iff.mp h
  rw [hd] at hall
  obtain ⟨rs, _, hall⟩ := Option.bind_eq_some_iff.mp hall
  obtain ⟨ts, ht, hall⟩ := Option.map_eq_some_iff.mp hall
  have htrailer : ∃ bytes, encodeTrailer offset entries = trailerMagic ++ bytes := by
    rw [encodeTrailer, List.append_assoc, List.append_assoc]
    exact ⟨_, rfl⟩
  obtain ⟨bytes, hb⟩ := htrailer
  rw [hb] at ht hl
  cases k
  case zero => cases hl
  case succ k =>
    obtain ⟨⟨t, rest⟩, hfirst, hts⟩ := Option.bind_eq_some_iff.mp ht
    obtain ⟨ts, _, hts⟩ := Option.bind_eq_some_iff.mp hts
    cases hts
    have hlt := ScopeTreeReader.nameRef_lt_of_readRawScopes h t (hall ▸ List.mem_append_right _ (.head _))
    have hn := RawRecord.nameRef_of_decode_trailer hfirst
    omega

-- Among the trees without fields that only the library knows, with no design units or few enough
-- strings, those that are read alike or refused: the ones with an index behind the records or with a
-- language of no name are refused, and the others must be records of scopes that are created as they
-- are.
theorem crossReads_iff (hk : ∀ s ∈ db.dfsFlatten, s.Known)
    (hdus : db.collectDus = [] ∨ db.streamNames.dedup.length ≤ 82)
    (h : db.scopeTreeSerialize [""] = some out) :
    CrossReads out ↔ db.collectDus ≠ [] ∨ ¬(∀ s ∈ db.dfsFlatten, s.LanguageNamed) ∨
      (db.TrailerClear out.data ∧ NcdbScope.ReadAlikeAll none db.roots) := by
  have ⟨records, trailer, hdata, hnone, hsome, hf, hkr, hlang, hrefs, hstrings, hread⟩ :=
    scopeTreeSerialize_known hk h
  obtain ⟨r, hr⟩ : ∃ r, r = ScopeTreeReader.mk out.strings out.sources := ⟨_, rfl⟩
  obtain ⟨counts, hcounts⟩ : ∃ counts, counts = out.counts.map (·.toNat) := ⟨_, rfl⟩
  rw [CrossReads, ← hr, ← hcounts]
  by_cases hd : db.collectDus = []
  case neg =>
    have ⟨entries, he⟩ := hsome hd
    have hs : r.strings.length ≤ 82 := by
      rw [hr]
      exact Nat.le_trans hstrings (hdus.resolve_left hd)
    have hrefused : r.readRaw out.data counts = none := by
      rw [hdata, he]
      exact readRaw_eq_none_of_trailer hf hkr rfl hs counts
    rw [hrefused]
    exact iff_of_true nofun (.inl hd)
  case pos =>
    have hmain : out.data = NcdbScopeRecord.encodeAll records := by
      rw [hdata, hnone hd, List.append_nil]
    have hle : (NcdbScopeRecord.encodeAll records).length + ([] : List UInt8).length ≤ out.data.length :=
      hmain ▸ Nat.le_refl _
    have ⟨k, _, hdec⟩ := NcdbScopeRecord.raw_decodeAll_encodeAll hf hkr [] hle
    rw [List.append_nil, ← hmain] at hdec
    have hempty : decodeAll (RawRecord.decode out.data.length) k [] = some [] := by cases k <;> rfl
    cases hrs : NcdbScopeRecord.rawAll records
    case none =>
      rw [hrs] at hlang hdec
      have hrefused : r.readRaw out.data counts = none := bind_of_eq_none hdec _
      rw [hrefused]
      exact iff_of_true nofun (.inr <| .inl fun hn => nomatch hlang.mpr hn)
    case some rs =>
      rw [hrs, Option.bind_some, hempty, Option.map_some, List.append_nil] at hdec
      have hscopes := @NcdbTables.readRawScopes_readScopes out.toNcdbTables out.sources records none []
        out.counts rs hrefs hrs
      rw [hread, ← hcounts, ← hr] at hscopes
      have hroots : r.readRaw out.data counts
          = some ((NcdbScope.restoredAll db.roots).map (·.crossRead none)) := by
        rw [ScopeTreeReader.readRaw, hdec]
        refine (bind_of_eq_some hscopes _).trans (congrArg some ?_)
        have hp : (none : Option Nat) ≠ some ScopeTypeT.fsm.value := Option.some_ne_none _ |>.symm
        rw [NcdbScope.crossReadAll_eq_foldl, RawScope.foldl_add_of_ne hp, List.nil_append]
      have hnamed := hlang.mp (by rw [hrs]; rfl)
      rw [hroots, ← NcdbScope.readAlikeAll_restoredAll_iff, ← NcdbScope.crossReadAll_eq_rawAll_iff]
      have ⟨hclear, hcut⟩ := scopeTreeDeserialize_scopeTreeSerialize h
      constructor
      case mp =>
        intro hcross
        have ⟨roots, hroots, he⟩ := hcross _ rfl
        refine .inr (.inr ?_)
        by_cases hc : db.TrailerClear out.data
        case pos =>
          cases (hclear hc).symm.trans hroots
          exact ⟨hc, he⟩
        case neg =>
          have hlen := congrArg List.length he
          have hfewer := hcut hc roots hroots
          rw [List.length_map, NcdbScope.length_rawAll, NcdbScope.length_restoredAll] at hlen
          omega
      case mpr =>
        intro hcross
        have ⟨hc, he⟩ := (hcross.resolve_left (absurd hd ·)).resolve_left (absurd hnamed ·)
        intro scopes hs
        cases hs
        exact ⟨_, hclear hc, he⟩

-- A statement covered, without anything unusual.
theorem crossReads_iff_plainTree :
    CrossReads plainTree ↔ (twoStatements 0).collectDus ≠ [] ∨
      ¬(∀ s ∈ (twoStatements 0).dfsFlatten, s.LanguageNamed) ∨
      ((twoStatements 0).TrailerClear plainTree.data ∧
        NcdbScope.ReadAlikeAll none (twoStatements 0).roots) := by
  refine @crossReads_iff (twoStatements 0) plainTree ?_ (.inl rfl) (Option.some_get _).symm
  have hd : (twoStatements 0).dfsFlatten = (twoStatements 0).roots := rfl
  rw [hd, twoStatements, List.forall_mem_singleton]
  refine .inr ⟨⟨rfl, rfl, rfl, rfl, rfl⟩, ?_⟩
  decide

-- A comment on the second of two statements, which the library marks as there though it is empty.
def commented : Ncdb where
  roots := [.mk { type := 0x40, name := "s1" }
    [.create 0x20 "s0" 0, { NcdbCover.create 0x20 "s1" 0 with comment := some "" }] []]

-- The marks before the names are taken for names, and the rest for a toggle pair.
theorem crossReads_fails :
    ¬∀ (db : Ncdb) (out : NcdbScopeTree), db.scopeTreeSerialize [""] = some out → CrossReads out := by
  intro h
  have hs : ((commented.scopeTreeSerialize [""]).bind fun out =>
      (ScopeTreeReader.mk out.strings out.sources).readRaw out.data (out.counts.map (·.toNat))).map
        (·.length) = some 2 := by
    decide +kernel
  have hr : ((commented.scopeTreeSerialize [""]).bind fun out =>
      scopeTreeDeserialize out.toNcdbTables out.data out.counts).map (·.length) = some 1 := by
    decide +kernel
  have ⟨scopes, hscopes, hl⟩ := Option.map_eq_some_iff.mp hs
  have ⟨out, ho, hscopes⟩ := Option.bind_eq_some_iff.mp hscopes
  have ⟨roots, hroots, he⟩ := h commented out ho scopes hscopes
  rw [ho, Option.bind_some, hroots, Option.map_some] at hr
  rw [he, NcdbScope.length_rawAll, Option.some.inj hr] at hl
  cases hl

end Ncdb
