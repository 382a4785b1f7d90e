import Covsight.NcdbC.Theorems.ScopeTreeCodec

-- What the C library reads back of a scope tree stream that it wrote.

-- Setting properties one after the other.
def restoredProps (ps : List NcdbProp) : List NcdbProp :=
  ps.foldl propTableSet []

-- A cover is created with the type of the first cover of its scope. Where its at_least is the
-- default of its type, it gets the one that goes with the scope.
def NcdbCover.restored (type atLeast : UInt64) (c : NcdbCover) : NcdbCover where
  type    := type
  name    := c.name
  count   := c.count
  flags   := coverDefaultFlags type
  atLeast := if c.atLeast = coverDefaultAtLeast c.type then atLeast else c.atLeast
  source  := c.source
  weight  := c.weight
  goal    := c.goal
  comment := c.comment.filter (· ≠ "")
  props   := restoredProps c.props

def restoredCovers : List NcdbCover → List NcdbCover
  | []      => []
  | c :: cs =>
    let atLeast := (atLeastOverride (c :: cs)).getD (coverDefaultAtLeast c.type)
    (c :: cs).map (·.restored c.type atLeast)

def NcdbScopeData.restored (d : NcdbScopeData) : NcdbScopeData :=
  { d with
    duSignature := d.duSignature.filter (· ≠ "")
    exprTerms   := d.exprTerms.filter (· ≠ "")
    attrs       := []
    props       := restoredProps d.props }

-- The count of the cover of some name.
def coverCountNamed (covers : List NcdbCover) (name : String) : UInt64 :=
  ((covers.find? (·.name = name)).map (·.count)).getD 0

namespace NcdbScope

mutual

def restored : NcdbScope → NcdbScope
  | mk d cs ss =>
    if (mk d cs ss).isTogglePair then
      NcdbTables.readTogglePair d.name (coverCountNamed cs ncdbToggleBin0To1)
        (coverCountNamed cs ncdbToggleBin1To0)
    else
      mk d.restored (restoredCovers cs) (restoredAll ss)

def restoredAll : List NcdbScope → List NcdbScope
  | []      => []
  | s :: ss => s.restored :: restoredAll ss

end

end NcdbScope

-- Tables only grow.
structure NcdbTables.Extends (t t' : NcdbTables) : Prop where
  strings : t.strings <+: t'.strings
  sources : t.sources <+: t'.sources

namespace NcdbTables.Extends

theorem rfl {t : NcdbTables} : t.Extends t :=
  ⟨List.prefix_rfl, List.prefix_rfl⟩

theorem trans {t t' t'' : NcdbTables} (h : t.Extends t') (h' : t'.Extends t'') : t.Extends t'' :=
  ⟨h.strings.trans h'.strings, h.sources.trans h'.sources⟩

end NcdbTables.Extends

-- A step of the writer adds to its tables and to its counts, so that any tables with as much in them
-- read something.
structure Stored (w w' : NcdbWriter) (counts : List UInt64) (reads : NcdbTables → Prop) : Prop where
  tables : w.toNcdbTables.Extends w'.toNcdbTables
  counts : w'.counts = w.counts ++ counts
  reads  : ∀ t, w'.toNcdbTables.Extends t → reads t

namespace Stored

variable {w w' w'' : NcdbWriter} {cs cs' : List UInt64} {p q : NcdbTables → Prop}

theorem refl (h : ∀ t, p t) : Stored w w [] p :=
  ⟨.rfl, (List.append_nil _).symm, fun t _ => h t⟩

theorem trans (h : Stored w w' cs p) (h' : Stored w' w'' cs' q) :
    Stored w w'' (cs ++ cs') fun t => p t ∧ q t where
  tables     := h.tables.trans h'.tables
  counts     := by rw [h'.counts, h.counts, List.append_assoc]
  reads t ht := ⟨h.reads t (h'.tables.trans ht), h'.reads t ht⟩

theorem imp (h : Stored w w' cs p) (hp : ∀ t, p t → q t) : Stored w w' cs q :=
  ⟨h.tables, h.counts, fun t ht => hp t (h.reads t ht)⟩

end Stored

theorem unlessDefault_getD {α : Type} [DecidableEq α] (default v : α) :
    (NcdbWriter.unlessDefault default v).getD default = v := by
  rw [NcdbWriter.unlessDefault]
  split
  case isTrue h  => exact h.symm
  case isFalse   => rfl

-- A field that is converted to be stored, and back.
theorem unlessDefault_map_getD {α β : Type} [DecidableEq α] {f : α → β} {g : β → α}
    (h : ∀ a, g (f a) = a) (default v : α) :
    (((NcdbWriter.unlessDefault default v).map f).map g).getD default = v := by
  have hid : g ∘ f = id := funext h
  rw [Option.map_map, hid, Option.map_id]
  exact unlessDefault_getD default v

namespace NcdbWriter

variable {w w' : NcdbWriter}

theorem addString_stored {s : String} {ref : UInt64} (h : w.addString s = some (ref, w')) :
    Stored w w' [] fun t => t.stringsGet ref = s := by
  simp only [addString, Option.ite_none_right_eq_some, Option.some.injEq, Prod.mk.injEq] at h
  have ⟨hl, hr, hw⟩ := h
  cases hr
  cases hw
  refine ⟨⟨intern.extends_table .., List.prefix_rfl⟩, (List.append_nil _).symm, fun t ht => ?_⟩
  have hs := intern.get?_of_prefix ht.strings
  rw [NcdbTables.stringsGet, UInt64.toNat_ofNat_of_lt' (Nat.lt_trans hl (by decide)), hs]
  rfl

theorem addSource_stored {src : Option NcdbSource} {ref : Option NcdbSourceRef}
    (h : w.addSource src = some (ref, w')) :
    Stored w w' [] fun t => ref.bind t.readSource = src := by
  cases src
  case none =>
    cases h
    exact .refl fun _ => rfl
  case some src =>
    simp only [addSource, getSourceId, Option.map_eq_some_iff, Option.ite_none_right_eq_some,
      Option.some.injEq, Prod.exists, Prod.mk.injEq] at h
    obtain ⟨_, _, ⟨hl, hi, hw⟩, hr, he⟩ := h
    cases hi
    cases hw
    cases hr
    cases he
    refine ⟨⟨List.prefix_rfl, intern.extends_table ..⟩, (List.append_nil _).symm, fun t ht => ?_⟩
    have hs := intern.get?_of_prefix ht.sources
    rw [Option.bind_some, NcdbTables.readSource,
      UInt64.toNat_ofNat_of_lt' (Nat.lt_trans hl (by decide)), hs]
    rfl

theorem addNonempty_stored {s : Option String} {ref : Option UInt64}
    (h : w.addNonempty s = some (ref, w')) :
    Stored w w' [] fun t => ref.map t.stringsGet = s.filter (· ≠ "") := by
  cases s
  case none =>
    cases h
    exact .refl fun _ => rfl
  case some s =>
    rw [addNonempty] at h
    split at h
    case isTrue he =>
      cases h
      exact .refl fun _ => by simp [Option.filter, he]
    case isFalse he =>
      have ⟨⟨r, w₁⟩, hr, hw⟩ := Option.map_eq_some_iff.mp h
      cases hw
      exact (addString_stored hr).imp fun t ht => by simp [Option.filter, ht, he]

-- A signed number is read back from 64 bits.
theorem ofInt_unzigzag_zigzag (v : Int64) :
    Int64.ofInt (unzigzag (UInt64.ofNat (zigzag v.toInt)).toNat) = v := by
  have hl := v.le_toInt
  have hu := v.toInt_lt
  have hz : zigzag v.toInt < 2 ^ 64 := by
    rw [zigzag]
    split <;> omega
  rw [UInt64.toNat_ofNat_of_lt' hz, unzigzag_zigzag, Int64.ofInt_toInt]

theorem addPropValue_stored {v : NcdbPropValue} {payload : NcdbPropPayload}
    (h : w.addPropValue v = some (payload, w')) :
    Stored w w' [] fun t => t.readPropValue payload = v := by
  cases v
  case int32 v =>
    cases h
    have hv := ofInt_unzigzag_zigzag v.toInt64
    rw [Int32.toInt_toInt64] at hv
    exact .refl fun t => by rw [NcdbTables.readPropValue, hv, Int32.toInt32_toInt64]
  case int64 v =>
    cases h
    exact .refl fun t => by rw [NcdbTables.readPropValue, ofInt_unzigzag_zigzag]
  case double =>
    cases h
    exact .refl fun _ => rfl
  case string s =>
    have ⟨⟨ref, w₁⟩, hr, hw⟩ := Option.map_eq_some_iff.mp h
    cases hw
    exact (addString_stored hr).imp fun t ht => congrArg NcdbPropValue.string ht

theorem addProps_stored {ps : List NcdbProp} {records : List NcdbPropRecord}
    (h : w.addProps ps = some (records, w')) :
    Stored w w' [] fun t => ∀ table, records.foldl (fun table p =>
      propTableSet table ⟨p.propId.toUInt16, t.readPropValue p.payload⟩) table
        = ps.foldl propTableSet table := by
  induction ps generalizing w records
  case nil =>
    cases h
    exact .refl fun _ _ => rfl
  case cons p ps hi =>
    have ⟨⟨payload, w₁⟩, hp, h⟩ := Option.bind_eq_some_iff.mp h
    have ⟨⟨records, w₂⟩, hps, h⟩ := Option.bind_eq_some_iff.mp h
    cases h
    refine ((addPropValue_stored hp).trans (hi hps)).imp fun t ⟨hv, hr⟩ table => ?_
    rw [List.foldl_cons, List.foldl_cons, hv, UInt16.toUInt16_toUInt64]
    exact hr _

theorem addPropTable_stored {ps : List NcdbProp} {records : Option (List NcdbPropRecord)}
    (h : w.addPropTable ps = some (records, w')) :
    Stored w w' [] fun t => (records.map t.readProps).getD [] = restoredProps ps := by
  rw [addPropTable] at h
  split at h
  case isTrue hn =>
    cases h
    exact .refl fun _ => by rw [hn]; rfl
  case isFalse =>
    have ⟨⟨rs, w₁⟩, hr, hw⟩ := Option.map_eq_some_iff.mp h
    cases hw
    exact (addProps_stored hr).imp fun t ht => ht []

end NcdbWriter

theorem Ncdb.mapM_scopeDfsIndex {db : Ncdb} {target link : Option Nat}
    (h : target.mapM db.scopeDfsIndex = some link) :
    link = target ∧ ∀ n ∈ target, n < db.dfsFlatten.length := by
  cases target
  case none =>
    cases h
    exact ⟨rfl, fun _ hn => nomatch hn⟩
  case some n =>
    have ⟨m, hm, hl⟩ := Option.map_eq_some_iff.mp h
    have ⟨hlt, he⟩ := Option.ite_none_right_eq_some.mp hm
    cases he
    cases hl
    exact ⟨rfl, fun _ hn => Option.some.inj hn ▸ hlt⟩

namespace NcdbWriter

variable {w w' : NcdbWriter} {db : Ncdb}

theorem writeHeader_stored {d : NcdbScopeData} {cs : List NcdbCover} {h : NcdbScopeHeader}
    (hw : w.writeHeader db d cs = some (h, w')) (hn : db.dfsFlatten.length < sizeLimit) :
    Stored w w' [] (fun t => t.readHeader h = d.restored) ∧ h.atLeast = atLeastOverride cs ∧
    h.extCovers = cs.any (·.isExtended) ∧ ∀ n ∈ d.duScope, n < db.dfsFlatten.length := by
  have ⟨⟨nameRef, w₁⟩, h₁, hw⟩ := Option.bind_eq_some_iff.mp hw
  have ⟨⟨source, w₂⟩, h₂, hw⟩ := Option.bind_eq_some_iff.mp hw
  have ⟨duLink, hl, hw⟩ := Option.bind_eq_some_iff.mp hw
  have ⟨⟨duSig, w₃⟩, h₃, hw⟩ := Option.bind_eq_some_iff.mp hw
  have ⟨⟨exprTerms, w₄⟩, h₄, hw⟩ := Option.bind_eq_some_iff.mp hw
  have ⟨⟨props, w₅⟩, h₅, hw⟩ := Option.bind_eq_some_iff.mp hw
  have ⟨hdu, hlt⟩ := Ncdb.mapM_scopeDfsIndex hl
  cases hw
  refine ⟨?_, rfl, rfl, hlt⟩
  have hs := (addString_stored h₁).trans <| (addSource_stored h₂).trans <|
    (addNonempty_stored h₃).trans <| (addNonempty_stored h₄).trans (addPropTable_stored h₅)
  refine hs.imp fun t ⟨hname, hsource, hsig, hexpr, hprops⟩ => ?_
  have hlink : (duLink.map UInt64.ofNat).map (·.toNat) = d.duScope := by
    rw [hdu, Option.map_map]
    cases hd : d.duScope
    case none   => rfl
    case some n => simp [UInt64.toNat_ofNat_of_lt' (Nat.lt_trans (hlt n hd) hn)]
  have hfiles : ((if d.duFiles = [] then none else some (d.duFiles.map (·.toUInt64))).map
      (·.map (·.toUInt32))).getD [] = d.duFiles := by
    split
    case isTrue he => exact he.symm
    case isFalse   => simp [Function.comp_def]
  have htype : (((unlessDefault ncdbSourceNone d.sourceType).map (·.toInt64.toUInt64)).map
      (·.toInt64.toInt32)).getD ncdbSourceNone = d.sourceType :=
    unlessDefault_map_getD (fun _ => by simp) _ _
  simp only [NcdbTables.readHeader, NcdbScopeData.restored, hname, hsource, hlink, hsig, hexpr,
    hfiles, hprops, htype, unlessDefault_getD, unlessDefault_map_getD Int64.toInt64_toUInt64]

theorem writeCoverExt_stored {nameRef : UInt64} {c : NcdbCover} {r : NcdbCoverRecord}
    (hw : w.writeCoverExt nameRef c = some (r, w')) :
    Stored w w' [] fun t => ∀ type atLeast count,
      t.stringsGet nameRef = c.name →
      t.readCover type atLeast count r = { c.restored type atLeast with count := count } := by
  have ⟨⟨source, w₁⟩, h₁, hw⟩ := Option.bind_eq_some_iff.mp hw
  have ⟨⟨comment, w₂⟩, h₂, hw⟩ := Option.bind_eq_some_iff.mp hw
  have ⟨⟨props, w₃⟩, h₃, hw⟩ := Option.bind_eq_some_iff.mp hw
  cases hw
  have hs := (addSource_stored h₁).trans <| (addNonempty_stored h₂).trans (addPropTable_stored h₃)
  refine hs.imp fun t ⟨hsource, hcomment, hprops⟩ type atLeast count hname => ?_
  have hatl : (unlessDefault (coverDefaultAtLeast c.type) c.atLeast).getD atLeast
      = if c.atLeast = coverDefaultAtLeast c.type then atLeast else c.atLeast := by
    rw [unlessDefault]
    split <;> rfl
  simp only [NcdbTables.readCover, NcdbCover.restored, hname, hsource, hcomment, hprops, hatl,
    unlessDefault_getD, unlessDefault_map_getD Int64.toInt64_toUInt64]

-- A cover that is not extended has nothing but its name and its count.
theorem readCover_of_not_extended {c : NcdbCover} (he : c.isExtended = false) {t : NcdbTables}
    {nameRef : UInt64} (hname : t.stringsGet nameRef = c.name) (type atLeast count : UInt64) :
    t.readCover type atLeast count { nameRef := nameRef }
      = { c.restored type atLeast with count := count } := by
  simp only [NcdbCover.isExtended, Bool.or_eq_false_iff, decide_eq_false_iff_not, not_not,
    Option.isSome_eq_false_iff, Option.isNone_iff_eq_none] at he
  have ⟨⟨⟨⟨⟨hs, hw⟩, hg⟩, hc⟩, hp⟩, ha⟩ := he
  simp only [NcdbTables.readCover, NcdbCover.restored, hname, hs, hw, hg, hc, hp, ha, if_pos]
  rfl

theorem writeCovers_stored {ext : Bool} {cs : List NcdbCover} {rs : List NcdbCoverRecord}
    (hw : w.writeCovers ext cs = some (rs, w')) (he : ext = false → ∀ c ∈ cs, c.isExtended = false) :
    (rs.length = cs.length ∧ ∀ r ∈ rs, ext = false → r = { nameRef := r.nameRef }) ∧
    Stored w w' (cs.map (·.count)) fun t => ∀ type atLeast rest,
      t.readCovers type atLeast rs (cs.map (·.count) ++ rest)
        = (cs.map (·.restored type atLeast), rest) := by
  induction cs generalizing w rs
  case nil =>
    cases hw
    exact ⟨⟨rfl, fun _ hm => nomatch hm⟩, .refl fun _ _ _ _ => rfl⟩
  case cons c cs hi =>
    have ⟨⟨nameRef, w₁⟩, h₁, hw⟩ := Option.bind_eq_some_iff.mp hw
    have ⟨⟨r, w₂⟩, h₂, hw⟩ := Option.bind_eq_some_iff.mp hw
    have ⟨⟨rs, w₃⟩, h₃, hw⟩ := Option.bind_eq_some_iff.mp hw
    cases hw
    have ⟨⟨hlen, hplain⟩, hrs⟩ := hi h₃ fun hf c hm => he hf c (.tail _ hm)
    have hname := addString_stored h₁
    have hcount : Stored w₁ (w₁.appendCount c.count) [c.count] fun _ => True :=
      ⟨.rfl, rfl, fun _ _ => trivial⟩
    have ⟨hp, hr⟩ : (ext = false → r = { nameRef := r.nameRef }) ∧
        Stored (w₁.appendCount c.count) w₂ [] fun t => t.stringsGet nameRef = c.name →
          ∀ type atLeast, t.readCover type atLeast c.count r = c.restored type atLeast := by
      cases ext
      case false =>
        cases h₂
        exact ⟨fun _ => rfl, .refl fun t hn type atLeast =>
          readCover_of_not_extended (he rfl c (.head _)) hn type atLeast c.count⟩
      case true =>
        have hs := writeCoverExt_stored h₂
        exact ⟨(nomatch ·), hs.imp fun t ht hn type atLeast => ht type atLeast _ hn⟩
    refine ⟨⟨congrArg Nat.succ hlen, fun r' hm => ?_⟩, ?_⟩
    · cases hm
      case head    => exact hp
      case tail hm => exact hplain r' hm
    · refine (hname.trans <| hcount.trans <| hr.trans hrs).imp ?_
      intro t ⟨hn, _, hc, hcs⟩ type atLeast rest
      simp only [NcdbTables.readCovers, List.map_cons, List.cons_append, List.tail_cons,
        List.headD_cons, hcs type atLeast rest, hc hn type atLeast]

end NcdbWriter

-- Reading the covers of a regular scope with the type and the at_least of its header.
theorem readCovers_restored {t : NcdbTables} {cs : List NcdbCover} {rs : List NcdbCoverRecord}
    (h : ∀ type atLeast rest, t.readCovers type atLeast rs (cs.map (·.count) ++ rest)
      = (cs.map (·.restored type atLeast), rest)) (rest : List UInt64) :
    let type := (cs.head?.map (·.type)).getD 0
    t.readCovers type ((atLeastOverride cs).getD (coverDefaultAtLeast type)) rs
      (cs.map (·.count) ++ rest) = (restoredCovers cs, rest) := by
  cases cs
  case nil         => exact h _ _ rest
  case cons c cs   => exact h _ _ rest

namespace NcdbScope

mutual

-- A record takes at least as many bytes as its scope has scopes.
theorem length_dfs_le : (s : NcdbScope) → {db : Ncdb} → {w w' : NcdbWriter} →
    {r : NcdbScopeRecord} → w.writeScope db s = some (r, w') → s.dfs.length ≤ r.encode.length
  | mk d cs ss, db, w, w', r, h => by
    rw [NcdbWriter.writeScope] at h
    split at h
    case isTrue ht =>
      have ⟨_, _, he⟩ := Option.map_eq_some_iff.mp h
      have hc : ss = [] := by
        simp only [isTogglePair, Bool.and_eq_true, List.isEmpty_iff] at ht
        exact ht.1.1.1.1.2
      cases he
      rw [dfs, hc, dfsAll]
      exact List.length_pos_iff.mpr (NcdbScopeRecord.encode_ne_nil _)
    case isFalse =>
      have ⟨⟨header, w₁⟩, _, h⟩ := Option.bind_eq_some_iff.mp h
      have ⟨⟨covers, w₂⟩, _, h⟩ := Option.bind_eq_some_iff.mp h
      have ⟨⟨children, w₃⟩, hs, h⟩ := Option.bind_eq_some_iff.mp h
      have hl := length_dfsAll_le ss hs
      cases h
      simp only [dfs, NcdbScopeRecord.encode, List.length_cons, List.length_append]
      omega

theorem length_dfsAll_le : (ss : List NcdbScope) → {db : Ncdb} → {w w' : NcdbWriter} →
    {rs : List NcdbScopeRecord} → w.writeScopes db ss = some (rs, w') →
    (dfsAll ss).length ≤ (NcdbScopeRecord.encodeAll rs).length
  | [], db, w, w', rs, h => Nat.zero_le _
  | s :: ss, db, w, w', rs, h => by
    have ⟨⟨r, w₁⟩, h₁, h⟩ := Option.bind_eq_some_iff.mp h
    have ⟨⟨rs, w₂⟩, h₂, h⟩ := Option.bind_eq_some_iff.mp h
    have hs := length_dfs_le s h₁
    have hss := length_dfsAll_le ss h₂
    cases h
    simp only [dfsAll, NcdbScopeRecord.encodeAll, List.length_append]
    omega

end

-- A toggle pair has no children.
theorem dfs_of_isTogglePair {s : NcdbScope} (h : s.isTogglePair) : s.dfs = [s] := by
  have ⟨d, cs, ss⟩ := s
  simp only [isTogglePair, Bool.and_eq_true, List.isEmpty_iff] at h
  rw [dfs, show ss = [] from h.1.1.1.1.2, dfsAll]

mutual

theorem length_dfs_restored : (s : NcdbScope) → s.restored.dfs.length = s.dfs.length
  | mk d cs ss => by
    rw [restored]
    split
    case isTrue ht => rw [dfs_of_isTogglePair ht]; rfl
    case isFalse   => rw [dfs, dfs, List.length_cons, List.length_cons, length_dfsAll_restored ss]

theorem length_dfsAll_restored : (ss : List NcdbScope) →
    (dfsAll (restoredAll ss)).length = (dfsAll ss).length
  | []      => rfl
  | s :: ss => by
    rw [restoredAll, dfsAll, dfsAll, List.length_append, List.length_append, length_dfs_restored s,
      length_dfsAll_restored ss]

end

end NcdbScope

namespace NcdbWriter

open NcdbScope (restored restoredAll)

-- What a successful write of a scope is good for: its record is well formed, its links are to scopes
-- of the database, and reading the record takes the counts that were added.
structure WroteScope (db : Ncdb) (w w' : NcdbWriter) (s : NcdbScope) (r : NcdbScopeRecord) : Prop where
  formed   : r.Formed
  resolved : s.restored.resolveDuLinks db.dfsFlatten.length = s.restored
  stored   : ∃ counts, Stored w w' counts fun t => ∀ rest,
    t.readScope r (counts ++ rest) = (s.restored, rest)

structure WroteScopes (db : Ncdb) (w w' : NcdbWriter) (ss : List NcdbScope)
    (rs : List NcdbScopeRecord) : Prop where
  formed   : NcdbScopeRecord.FormedAll rs
  resolved : NcdbScope.resolveAll db.dfsFlatten.length (restoredAll ss) = restoredAll ss
  stored   : ∃ counts, Stored w w' counts fun t => ∀ rest,
    t.readScopes rs (counts ++ rest) = (restoredAll ss, rest)

theorem wroteTogglePair {db : Ncdb} {w w' : NcdbWriter} {s : NcdbScope} {nameRef : UInt64}
    (ht : s.isTogglePair) (h : w.addString s.data.name = some (nameRef, w')) :
    WroteScope db w (w'.writeToggleCounts s.covers) s (.togglePair nameRef) := by
  have hr : s.restored = NcdbTables.readTogglePair s.data.name
      (coverCountNamed s.covers ncdbToggleBin0To1) (coverCountNamed s.covers ncdbToggleBin1To0) := by
    have ⟨d, cs, ss⟩ := s
    rw [restored, if_pos ht]
    rfl
  have hn := addString_stored h
  refine ⟨trivial, by rw [hr]; rfl, [coverCountNamed s.covers ncdbToggleBin0To1,
    coverCountNamed s.covers ncdbToggleBin1To0], hn.tables, ?_, fun t ht rest => ?_⟩
  · simp [writeToggleCounts, appendCount, hn.counts, coverCountNamed]
  · rw [hr, NcdbTables.readScope, hn.reads t ht]
    rfl

theorem wroteRegular {db : Ncdb} {w w₁ w₂ w' : NcdbWriter} {d : NcdbScopeData}
    {cs : List NcdbCover} {ss : List NcdbScope} {header : NcdbScopeHeader}
    {covers : List NcdbCoverRecord} {children : List NcdbScopeRecord}
    (hn : db.dfsFlatten.length < sizeLimit) (ht : (NcdbScope.mk d cs ss).isTogglePair = false)
    (hh : w.writeHeader db d cs = some (header, w₁))
    (hc : w₁.writeCovers header.extCovers cs = some (covers, w₂))
    (hs : WroteScopes db w₂ w' ss children) :
    WroteScope db w w' (.mk d cs ss) (.regular header (cs.head?.map (·.type)) covers children) := by
  have ⟨hh, hatl, hext, hdu⟩ := writeHeader_stored hh hn
  have ⟨⟨hlen, hplain⟩, hc⟩ := writeCovers_stored hc fun hf c hm => by
    rw [hext, List.any_eq_false] at hf
    simpa using hf c hm
  have ⟨counts, hsub⟩ := hs.stored
  have hr : (NcdbScope.mk d cs ss).restored = .mk d.restored (restoredCovers cs) (restoredAll ss) := by
    rw [restored, if_neg (by simp [ht])]
  have hlinks : d.restored.duScope.filter (· < db.dfsFlatten.length) = d.restored.duScope := by
    cases hd : d.duScope
    case none   => simp [NcdbScopeData.restored, hd]
    case some n => simp [NcdbScopeData.restored, hd, Option.filter, hdu n hd]
  refine ⟨⟨?_, hplain, hs.formed⟩, ?_, _, (hh.trans <| hc.trans hsub).imp ?_⟩
  · rw [← List.length_eq_zero_iff, hlen, List.length_eq_zero_iff]
    cases cs <;> simp
  · rw [hr, NcdbScope.resolveDuLinks, hlinks, hs.resolved]
  · intro t ⟨hh, hc, hsub⟩ rest
    have hcovers := readCovers_restored hc (counts ++ rest)
    rw [hr, NcdbTables.readScope]
    simp only [hatl, hh, List.nil_append, List.append_assoc] at hcovers ⊢
    rw [hcovers]
    simp only [hsub rest]

mutual

theorem writeScope_wrote {db : Ncdb} (hn : db.dfsFlatten.length < sizeLimit) :
    (s : NcdbScope) → {w w' : NcdbWriter} → {r : NcdbScopeRecord} →
    w.writeScope db s = some (r, w') → WroteScope db w w' s r
  | .mk d cs ss, w, w', r, h => by
    rw [writeScope] at h
    split at h
    case isTrue ht =>
      have ⟨⟨nameRef, w₁⟩, hr, he⟩ := Option.map_eq_some_iff.mp h
      cases he
      exact wroteTogglePair ht hr
    case isFalse ht =>
      have ⟨⟨header, w₁⟩, hh, h⟩ := Option.bind_eq_some_iff.mp h
      have ⟨⟨covers, w₂⟩, hc, h⟩ := Option.bind_eq_some_iff.mp h
      have ⟨⟨children, w₃⟩, hs, h⟩ := Option.bind_eq_some_iff.mp h
      cases h
      exact wroteRegular hn (by simpa using ht) hh hc (writeScopes_wrote hn ss hs)

theorem writeScopes_wrote {db : Ncdb} (hn : db.dfsFlatten.length < sizeLimit) :
    (ss : List NcdbScope) → {w w' : NcdbWriter} → {rs : List NcdbScopeRecord} →
    w.writeScopes db ss = some (rs, w') → WroteScopes db w w' ss rs
  | [], w, w', rs, h => by
    cases h
    exact ⟨trivial, rfl, [], .refl fun _ _ => rfl⟩
  | s :: ss, w, w', rs, h => by
    have ⟨⟨r, w₁⟩, h₁, h⟩ := Option.bind_eq_some_iff.mp h
    have ⟨⟨rs, w₂⟩, h₂, h⟩ := Option.bind_eq_some_iff.mp h
    cases h
    have hs := writeScope_wrote hn s h₁
    have hss := writeScopes_wrote hn ss h₂
    have ⟨counts, hread⟩ := hs.stored
    have ⟨counts', hreads⟩ := hss.stored
    refine ⟨⟨hs.formed, hss.formed⟩, ?_, counts ++ counts', (hread.trans hreads).imp ?_⟩
    · rw [NcdbScope.restoredAll, NcdbScope.resolveAll, hs.resolved, hss.resolved]
    · intro t ⟨hread, hreads⟩ rest
      rw [NcdbTables.readScopes, List.append_assoc, hread]
      simp only [hreads rest]
      rfl

end

end NcdbWriter

-- The trailer is found where it was put.
theorem trailerOffset_encodeTrailer {main : List UInt8} (h : main.length < sizeLimit)
    (entries : List (UInt64 × UInt64)) :
    trailerOffset (main ++ encodeTrailer main.length entries) = some main.length := by
  rw [encodeTrailer, ← List.append_assoc]
  refine trailerOffset_footer ?_ h
  rw [List.length_append]
  exact Nat.lt_add_of_pos_right (Nat.zero_lt_succ _)

namespace NcdbWriter

theorem addDuNames_stored (w : NcdbWriter) (dus : List (String × Nat)) :
    Stored w (w.addDuNames dus).snd [] fun _ => True := by
  induction dus generalizing w
  case nil => exact .refl fun _ => trivial
  case cons du dus hi =>
    have ⟨name, n⟩ := du
    have hw : Stored w ((w.addString name).getD (-1, w)).snd [] fun _ => True := by
      cases hs : w.addString name
      case none   => exact .refl fun _ => trivial
      case some p => exact (addString_stored (by rw [hs]; rfl)).imp fun _ _ => trivial
    exact (hw.trans (hi _)).imp fun _ _ => trivial

theorem writeScopeTrailer_ok (db : Ncdb) (w : NcdbWriter) (offset : Nat) :
    Stored w (w.writeScopeTrailer db offset).snd [] (fun _ => True) ∧
    (db.collectDus = [] → (w.writeScopeTrailer db offset).fst = []) ∧
    (db.collectDus ≠ [] → ∃ entries, (w.writeScopeTrailer db offset).fst
      = encodeTrailer offset entries) := by
  rw [writeScopeTrailer]
  by_cases h : db.collectDus = []
  · rw [if_pos h]
    exact ⟨.refl fun _ => trivial, fun _ => rfl, fun hn => absurd h hn⟩
  · rw [if_neg h]
    exact ⟨addDuNames_stored w _, fun hn => absurd hn h, fun _ => ⟨_, rfl⟩⟩

end NcdbWriter

theorem length_readScopes (t : NcdbTables) (records : List NcdbScopeRecord) (counts : List UInt64) :
    (t.readScopes records counts).fst.length = records.length := by
  induction records generalizing counts
  case nil               => rfl
  case cons r records hi => exact congrArg Nat.succ (hi _)

namespace NcdbScope

@[simp]
theorem length_resolveAll (total : Nat) (ss : List NcdbScope) :
    (resolveAll total ss).length = ss.length := by
  induction ss
  case nil          => rfl
  case cons s ss hi => exact congrArg Nat.succ hi

@[simp]
theorem length_restoredAll (ss : List NcdbScope) : (restoredAll ss).length = ss.length := by
  induction ss
  case nil          => rfl
  case cons s ss hi => exact congrArg Nat.succ hi

end NcdbScope

-- A tree without design units has no trailer; its stream should not look as if it had one.
def Ncdb.TrailerClear (db : Ncdb) (data : List UInt8) : Prop :=
  db.collectDus = [] → trailerOffset data = none

section Serialize

variable {db : Ncdb} {strings : List String} {out : NcdbScopeTree}

-- What a successful write of a tree went through.
theorem Ncdb.scopeTreeSerialize_ok (h : db.scopeTreeSerialize strings = some out) :
    ∃ records trailer counts,
      out.data = NcdbScopeRecord.encodeAll records ++ trailer ∧ out.data.length < sizeLimit ∧
      (db.collectDus = [] → trailer = []) ∧
      (db.collectDus ≠ [] → ∃ entries, trailer
        = encodeTrailer (NcdbScopeRecord.encodeAll records).length entries) ∧
      NcdbScopeRecord.FormedAll records ∧
      NcdbScope.resolveAll db.dfsFlatten.length (NcdbScope.restoredAll db.roots)
        = NcdbScope.restoredAll db.roots ∧
      out.counts = counts ∧
      ∀ rest, out.toNcdbTables.readScopes records (counts ++ rest)
        = (NcdbScope.restoredAll db.roots, rest) := by
  have ⟨⟨records, w⟩, hw, h⟩ := Option.bind_eq_some_iff.mp h
  have ⟨hl, ho⟩ := Option.ite_none_right_eq_some.mp h
  cases ho
  have hdfs := NcdbScope.length_dfsAll_le _ hw
  have hn : db.dfsFlatten.length < sizeLimit := by
    rw [List.length_append] at hl
    rw [Ncdb.dfsFlatten]
    omega
  have hs := NcdbWriter.writeScopes_wrote hn _ hw
  have ⟨htrailer, hnone, hsome⟩ :=
    NcdbWriter.writeScopeTrailer_ok db w (NcdbScopeRecord.encodeAll records).length
  have ⟨counts, hread⟩ := hs.stored
  refine ⟨records, _, counts, rfl, hl, hnone, hsome, hs.formed, hs.resolved, ?_, ?_⟩
  · exact (hread.trans htrailer).counts.trans (by simp)
  · exact hread.reads _ htrailer.tables

theorem NcdbScopeRecord.decodeAll_encodeAll {records : List NcdbScopeRecord} (h : FormedAll records)
    {fuel : Nat} (hf : (encodeAll records).length ≤ fuel) (hl : (encodeAll records).length < sizeLimit) :
    decodeAll (decode fuel) fuel (encodeAll records) = some records := by
  have hd : ∀ r ∈ records, ∀ rest, decode fuel (r.encode ++ rest) = some (r, rest) := by
    intro r hm
    have hle := length_encode_le hm
    exact decode_encode (h.of_mem hm) (by omega) (by omega)
  have hn := length_le_encodeAll records
  rw [encodeAll_eq_flatMap] at hf hn ⊢
  exact decodeAll_flatMap hd (fun r _ => encode_ne_nil r) (by omega)

-- Reading the stream back. Where it is taken to have a trailer that it does not have, it is cut
-- short, and the tree that is read, if any, has fewer roots.
theorem scopeTreeDeserialize_scopeTreeSerialize (h : db.scopeTreeSerialize strings = some out) :
    (db.TrailerClear out.data →
      scopeTreeDeserialize out.toNcdbTables out.data out.counts
        = some (NcdbScope.restoredAll db.roots)) ∧
    (¬db.TrailerClear out.data → ∀ roots,
      scopeTreeDeserialize out.toNcdbTables out.data out.counts = some roots →
      roots.length < db.roots.length) := by
  obtain ⟨records, trailer, counts, hdata, hl, hnone, hsome, hf, hres, hc, hread⟩ :=
    Ncdb.scopeTreeSerialize_ok h
  have hmain : (NcdbScopeRecord.encodeAll records).length ≤ out.data.length := by
    rw [hdata, List.length_append]
    omega
  have hdec := NcdbScopeRecord.decodeAll_encodeAll hf hmain (by omega)
  refine ⟨fun hclear => ?_, fun hclear roots hroots => ?_⟩
  · have hcut : out.data.take ((trailerOffset out.data).getD out.data.length)
        = NcdbScopeRecord.encodeAll records := by
      by_cases hd : db.collectDus = []
      · rw [hclear hd, Option.getD_none, List.take_length, hdata, hnone hd, List.append_nil]
      · obtain ⟨entries, he⟩ := hsome hd
        rw [hdata, he, trailerOffset_encodeTrailer (by omega), Option.getD_some,
          List.take_left' rfl]
    have hread := hread []
    rw [List.append_nil] at hread
    rw [scopeTreeDeserialize, hcut, hdec, hc]
    simp only [Option.bind_eq_bind, Option.bind_some, hread, Option.pure_def]
    rw [NcdbScope.length_dfsAll_restored]
    exact congrArg some hres
  · obtain ⟨hd, hoff⟩ := Classical.not_imp.mp hclear
    obtain ⟨off, ho⟩ := Option.ne_none_iff_exists'.mp hoff
    have hlt : off < out.data.length := by
      simp only [trailerOffset, Option.ite_none_right_eq_some, Option.some.injEq] at ho
      omega
    obtain ⟨records', hrec, hroots⟩ := Option.bind_eq_some_iff.mp hroots
    cases hroots
    rw [ho, Option.getD_some] at hrec
    have hall : decodeAll (NcdbScopeRecord.decode out.data.length) out.data.length
        (out.data.take off ++ out.data.drop off) = some records := by
      rw [List.take_append_drop]
      rwa [hdata, hnone hd, List.append_nil] at hdec ⊢
    have hfewer := (NcdbScopeRecord.local_decode _).decodeAll_append hrec hall
      (by rw [ne_eq, List.drop_eq_nil_iff]; omega)
    have hroots := congrArg (fun p => p.fst.length) (hread [])
    rw [length_readScopes, NcdbScope.length_restoredAll] at hroots
    rw [NcdbScope.length_resolveAll, length_readScopes]
    omega

end Serialize
