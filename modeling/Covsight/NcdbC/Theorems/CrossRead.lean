import Covsight.Ncdb.RawScopeTree
import Covsight.NcdbC.Theorems.ScopeTreeRoundTrip

-- What the reader of the Python implementation makes of a stream that the C library wrote.

-- Decoding values that something else encoded, of which some are refused.

theorem decodeIf_presentBit_map {α β : Type} {decode : List UInt8 → Option (β × List UInt8)}
    {encode : α → List UInt8} {f : α → Option β} {a : Option α} {word bit : Nat} (hn : bit ≠ 0)
    (hb : word &&& bit = presentBit a.isSome bit)
    (h : ∀ x rest, decode (encode x ++ rest) = (f x).map (·, rest)) (rest : List UInt8) :
    decodeIf word bit decode (encodeOption encode a ++ rest) = (a.mapM f).map (·, rest) := by
  rw [decodeIf, hb]
  cases a
  case none   => rfl
  case some x =>
    rw [if_neg (by simp [presentBit, hn]), encodeOption, h, Option.map_map]
    cases hf : f x <;> simp [hf]

theorem decodeIf_presentBit_of_total {α β : Type} {decode : List UInt8 → Option (β × List UInt8)}
    {encode : α → List UInt8} {g : α → β} {a : Option α} {word bit : Nat} (hn : bit ≠ 0)
    (hb : word &&& bit = presentBit a.isSome bit)
    (h : ∀ x rest, decode (encode x ++ rest) = some (g x, rest)) (rest : List UInt8) :
    decodeIf word bit decode (encodeOption encode a ++ rest) = some (a.map g, rest) := by
  rw [decodeIf_presentBit_map (f := some ∘ g) hn hb h]
  cases a <;> rfl

theorem decodeMany_mapM {α β : Type} {decode : List UInt8 → Option (β × List UInt8)}
    {encode : α → List UInt8} {f : α → Option β} {xs : List α}
    (h : ∀ x ∈ xs, ∀ rest, decode (encode x ++ rest) = (f x).map (·, rest)) (rest : List UInt8) :
    decodeMany decode xs.length (xs.flatMap encode ++ rest) = (xs.mapM f).map (·, rest) := by
  induction xs
  case nil => rfl
  case cons x xs hi =>
    have hi := hi fun x hx => h x (.tail _ hx)
    rw [List.length_cons, decodeMany, List.flatMap_cons, List.append_assoc, h x (.head _), List.mapM_cons]
    cases f x
    case none   => rfl
    case some y =>
      simp only [Option.map_some, Option.bind_eq_bind, Option.bind_some, hi]
      cases xs.mapM f <;> rfl

theorem decodeMany_of_total {α β : Type} {decode : List UInt8 → Option (β × List UInt8)}
    {encode : α → List UInt8} {g : α → β} {xs : List α}
    (h : ∀ x ∈ xs, ∀ rest, decode (encode x ++ rest) = some (g x, rest)) (rest : List UInt8) :
    decodeMany decode xs.length (xs.flatMap encode ++ rest) = some (xs.map g, rest) := by
  have hm := decodeMany_mapM (f := fun x => pure (g x)) h rest
  rwa [List.mapM_pure] at hm

theorem decodeVarint_encodeUInt64 (n : UInt64) (rest : List UInt8) :
    decodeVarint (encodeUInt64 n ++ rest) = some (n.toNat, rest) :=
  decodeVarint_encodeVarint ..

namespace NcdbScopeHeader

-- Only fields that both sides know.
structure Known (h : NcdbScopeHeader) : Prop where
  duLink    : h.duLink = none
  duSig     : h.duSig = none
  exprTerms : h.exprTerms = none
  duFiles   : h.duFiles = none
  props     : h.props = none
  extCovers : h.extCovers = false

-- The source language, where it has a name.
def language (h : NcdbScopeHeader) : Option (Option SourceT) :=
  h.sourceType.mapM fun v => SourceT.ofValue v.toNat

theorem decodeHeader_encode {h : NcdbScopeHeader} (hk : h.Known) (rest : List UInt8) :
    RawRecord.decodeHeader (h.encode ++ rest)
      = h.language.map fun _ => ((h.type.toNat, h.nameRef.toNat), rest) := by
  have ⟨hf, hs, hw, ha, hg, ht, _⟩ := h.presence_land
  have hsrc : ∀ (ref : NcdbSourceRef) rest, ScopeHeader.decodeSource (ref.encode ++ rest)
      = some (⟨ref.sourceId.toNat, ref.line.toNat, ref.token.toNat⟩, rest) := by
    intro ref rest
    simp [ScopeHeader.decodeSource, NcdbSourceRef.encode, List.append_assoc, decodeVarint_encodeUInt64]
  have hlang : ∀ (v : UInt64) rest, ScopeHeader.decodeSourceType (encodeUInt64 v ++ rest)
      = (SourceT.ofValue v.toNat).map (·, rest) := by
    intro v rest
    rw [ScopeHeader.decodeSourceType, decodeVarint_encodeUInt64]
    simp only [Option.bind_eq_bind, Option.bind_some]
    cases SourceT.ofValue v.toNat <;> rfl
  have hnone : ∀ {α : Type} (e : α → List UInt8), encodeOption e none = [] := fun _ => rfl
  rw [RawRecord.decodeHeader, encode, hk.duLink, hk.duSig, hk.exprTerms, hk.duFiles, hk.props]
  simp only [hnone, List.append_nil, List.append_assoc, decodeVarint_encodeUInt64,
    decodeVarint_encodeVarint, Option.bind_eq_bind, Option.bind_some]
  refine (bind_of_eq_some (decodeIf_presentBit_of_total (by decide) hf decodeVarint_encodeUInt64 _) _).trans ?_
  refine (bind_of_eq_some (decodeIf_presentBit_of_total (by decide) hs hsrc _) _).trans ?_
  refine (bind_of_eq_some (decodeIf_presentBit_of_total (by decide) hw decodeVarint_encodeUInt64 _) _).trans ?_
  refine (bind_of_eq_some (decodeIf_presentBit_of_total (by decide) ha decodeVarint_encodeUInt64 _) _).trans ?_
  refine (bind_of_eq_some (decodeIf_presentBit_of_total (by decide) hg decodeVarint_encodeUInt64 _) _).trans ?_
  have hl := decodeIf_presentBit_map (by decide) ht hlang rest
  rw [language]
  cases hm : h.sourceType.mapM fun v => SourceT.ofValue v.toNat
  case none =>
    rw [hm] at hl
    exact bind_of_eq_none hl _
  case some =>
    rw [hm] at hl
    exact (bind_of_eq_some hl _).trans rfl

end NcdbScopeHeader

namespace NcdbScopeRecord

mutual

def Known : NcdbScopeRecord → Prop
  | togglePair _            => True
  | regular header _ _ records => header.Known ∧ KnownAll records

def KnownAll : List NcdbScopeRecord → Prop
  | []                => True
  | record :: records => record.Known ∧ KnownAll records

end

mutual

-- The record that the other side decodes, if the source languages have names.
def raw : NcdbScopeRecord → Option RawRecord
  | togglePair nameRef                       => some (.togglePair nameRef.toNat)
  | regular header coverType covers children => do
    let _ ← header.language
    let records ← rawAll children
    return .regular header.type.toNat header.nameRef.toNat ((coverType.map (·.toNat)).getD 0)
      (covers.map (·.nameRef.toNat)) records

def rawAll : List NcdbScopeRecord → Option (List RawRecord)
  | []                => some []
  | record :: records => do
    let r ← record.raw
    let rs ← rawAll records
    return r :: rs

end

theorem rawAll_eq_mapM (records : List NcdbScopeRecord) : rawAll records = records.mapM raw := by
  induction records
  case nil          => rfl
  case cons r rs hi => rw [rawAll, hi, List.mapM_cons]

theorem KnownAll.of_mem {records : List NcdbScopeRecord} (h : KnownAll records) {r : NcdbScopeRecord}
    (hm : r ∈ records) : r.Known := by
  induction records
  case nil => cases hm
  case cons record records hi =>
    rw [KnownAll] at h
    cases hm
    case head    => exact h.1
    case tail hm => exact hi h.2 hm

theorem raw_decodeCoverType_encode {coverType : Option UInt64} {covers : List NcdbCoverRecord}
    (h : coverType = none ↔ covers = []) (rest : List UInt8) :
    RawRecord.decodeCoverType covers.length (encodeOption encodeUInt64 coverType ++ rest)
      = some ((coverType.map (·.toNat)).getD 0, rest) := by
  rw [RawRecord.decodeCoverType]
  cases coverType
  case none      => simp [h.mp rfl, encodeOption]
  case some type =>
    have hn : covers.length ≠ 0 := fun hc => Option.some_ne_none type (h.mpr (List.length_eq_zero_iff.mp hc))
    rw [if_neg hn]
    exact decodeVarint_encodeUInt64 ..

-- A record whose fields are all known is decoded as it was meant, or refused.
theorem raw_decode_encode {fuel : Nat} : ∀ {record : NcdbScopeRecord}, record.Formed → record.Known →
    record.encode.length ≤ fuel → ∀ rest,
    RawRecord.decode fuel (record.encode ++ rest) = record.raw.map (·, rest) := by
  induction fuel
  case zero =>
    intro record _ _ hl
    exact absurd (List.length_eq_zero_iff.mp (Nat.le_zero.mp hl)) (encode_ne_nil record)
  case succ fuel hi =>
    intro record hf hk hl rest
    cases record
    case togglePair nameRef =>
      rw [encode, List.cons_append, RawRecord.decode, if_pos (by decide), decodeVarint_encodeUInt64]
      rfl
    case regular header coverType covers children =>
      have ⟨hc, _, hf⟩ := hf
      have ⟨hkh, hk⟩ := hk
      rw [encode, List.length_cons] at hl
      have hchildren : ∀ r ∈ children, ∀ rest,
          RawRecord.decode fuel (r.encode ++ rest) = r.raw.map (·, rest) := by
        intro r hm
        refine hi (hf.of_mem hm) (hk.of_mem hm) ?_
        have hle := length_encode_le hm
        simp only [List.length_append] at hl
        omega
      have hcovers : ∀ c ∈ covers, ∀ rest, decodeVarint (c.encode header.extCovers ++ rest)
          = some (c.nameRef.toNat, rest) := by
        intro c _ rest
        rw [hkh.extCovers, NcdbCoverRecord.encode, if_neg (by decide), List.append_nil]
        exact decodeVarint_encodeUInt64 ..
      have hrefs := decodeMany_of_total hcovers (children.flatMap encode ++ rest)
      have hrecords := decodeMany_mapM hchildren rest
      rw [encode, List.cons_append, RawRecord.decode, if_neg (by decide), encodeAll_eq_flatMap, raw,
        rawAll_eq_mapM]
      simp only [List.append_assoc]
      rw [NcdbScopeHeader.decodeHeader_encode hkh]
      cases header.language
      case none => rfl
      case some =>
        simp only [Option.map_some, Option.bind_eq_bind, Option.bind_some, decodeVarint_encodeVarint,
          raw_decodeCoverType_encode hc, hrefs, hrecords]
        cases children.mapM raw <;> rfl

end NcdbScopeRecord

-- A scope without anything that the other side has no field for.

def NcdbScopeData.Known (d : NcdbScopeData) : Prop :=
  d.duScope = none ∧ d.duSignature.filter (· ≠ "") = none ∧ d.exprTerms.filter (· ≠ "") = none ∧
  d.duFiles = [] ∧ d.props = []

def NcdbScope.Known (s : NcdbScope) : Prop :=
  s.isTogglePair ∨ s.data.Known ∧ ∀ c ∈ s.covers, c.isExtended = false

-- The source language as it is stored.
def NcdbScopeData.language (d : NcdbScopeData) : Option (Option SourceT) :=
  (NcdbWriter.unlessDefault ncdbSourceNone d.sourceType).mapM fun v =>
    SourceT.ofValue v.toInt64.toUInt64.toNat

namespace NcdbScope

mutual

-- The names that go to the table of strings, in the order they are written.
def streamNames : NcdbScope → List String
  | mk d cs ss =>
    d.name :: ((if (mk d cs ss).isTogglePair then [] else cs.map (·.name)) ++ streamNamesAll ss)

def streamNamesAll : List NcdbScope → List String
  | []      => []
  | s :: ss => s.streamNames ++ streamNamesAll ss

end

end NcdbScope

-- Interning strings one after the other.
def internNames (table names : List String) : List String :=
  names.foldl (fun table name => (intern table name).snd) table

theorem internNames_append (table names names' : List String) :
    internNames table (names ++ names') = internNames (internNames table names) names' :=
  List.foldl_append ..

namespace NcdbWriter

variable {db : Ncdb} {w w' : NcdbWriter}

theorem addString_eq {s : String} {ref : UInt64} (h : w.addString s = some (ref, w')) :
    w'.strings = (intern w.strings s).snd ∧ Stored w w' [] fun t => ref.toNat < t.strings.length := by
  have hs := addString_stored h
  simp only [addString, Option.ite_none_right_eq_some, Option.some.injEq, Prod.mk.injEq] at h
  obtain ⟨hl, hr, hw⟩ := h
  cases hr
  cases hw
  refine ⟨rfl, hs.tables, hs.counts, fun t ht => ?_⟩
  obtain ⟨hlt, _⟩ := List.getElem?_eq_some_iff.mp (intern.get?_of_prefix ht.strings)
  rwa [UInt64.toNat_ofNat_of_lt' (Nat.lt_trans hl (by decide))]

theorem addSource_strings {src : Option NcdbSource} {ref : Option NcdbSourceRef}
    (h : w.addSource src = some (ref, w')) : w'.strings = w.strings := by
  cases src
  case none =>
    cases h
    rfl
  case some src =>
    simp only [addSource, getSourceId, Option.map_eq_some_iff, Option.ite_none_right_eq_some,
      Option.some.injEq, Prod.exists, Prod.mk.injEq] at h
    obtain ⟨_, _, ⟨_, _, hw⟩, _, he⟩ := h
    cases hw
    cases he
    rfl

theorem addNonempty_of_none {s : Option String} {ref : Option UInt64} (hn : s.filter (· ≠ "") = none)
    (h : w.addNonempty s = some (ref, w')) : ref = none ∧ w' = w := by
  cases s
  case none =>
    cases h
    exact ⟨rfl, rfl⟩
  case some s =>
    have he : s = "" := by simpa [Option.filter] using hn
    rw [addNonempty, if_pos he] at h
    cases h
    exact ⟨rfl, rfl⟩

theorem writeHeader_known {d : NcdbScopeData} {cs : List NcdbCover} {h : NcdbScopeHeader} (hd : d.Known)
    (hc : ∀ c ∈ cs, c.isExtended = false) (hw : w.writeHeader db d cs = some (h, w')) :
    h.Known ∧ h.type = d.type ∧ h.language = d.language ∧
    w'.strings = (intern w.strings d.name).snd ∧ w'.counts = w.counts ∧
    Stored w w' [] fun t => h.nameRef.toNat < t.strings.length := by
  have ⟨hlink, hsig, hexpr, hfiles, hprops⟩ := hd
  have ⟨⟨nameRef, w₁⟩, h₁, hw⟩ := Option.bind_eq_some_iff.mp hw
  have ⟨⟨source, w₂⟩, h₂, hw⟩ := Option.bind_eq_some_iff.mp hw
  have ⟨duLink, hl, hw⟩ := Option.bind_eq_some_iff.mp hw
  have ⟨⟨duSig, w₃⟩, h₃, hw⟩ := Option.bind_eq_some_iff.mp hw
  have ⟨⟨exprTerms, w₄⟩, h₄, hw⟩ := Option.bind_eq_some_iff.mp hw
  have ⟨⟨props, w₅⟩, h₅, hw⟩ := Option.bind_eq_some_iff.mp hw
  have ⟨hname, href⟩ := addString_eq h₁
  have hsource := addSource_stored h₂
  have hstrings := addSource_strings h₂
  obtain ⟨rfl, rfl⟩ := addNonempty_of_none hsig h₃
  obtain ⟨rfl, rfl⟩ := addNonempty_of_none hexpr h₄
  rw [addPropTable, if_pos hprops] at h₅
  rw [hlink] at hl
  cases h₅
  cases hl
  cases hw
  have hs := (href.trans hsource).imp fun _ ht => ht.1
  refine ⟨⟨rfl, rfl, rfl, ?_, rfl, ?_⟩, rfl, ?_, hstrings.trans hname, ?_, hs⟩
  · exact if_pos hfiles
  · exact List.any_eq_false.mpr fun c hm => by simp [hc c hm]
  · simp only [NcdbScopeHeader.language, NcdbScopeData.language]
    cases unlessDefault ncdbSourceNone d.sourceType <;> rfl
  · exact hs.counts.trans (List.append_nil _)

theorem writeCovers_known {ext : Bool} {cs : List NcdbCover} {rs : List NcdbCoverRecord}
    (hx : ext = false) (hw : w.writeCovers ext cs = some (rs, w')) :
    w'.strings = internNames w.strings (cs.map (·.name)) ∧
    Stored w w' (cs.map (·.count)) fun t => ∀ r ∈ rs, r.nameRef.toNat < t.strings.length := by
  induction cs generalizing w rs
  case nil =>
    cases hw
    exact ⟨rfl, .refl fun _ => nofun⟩
  case cons c cs hi =>
    have ⟨⟨nameRef, w₁⟩, h₁, hw⟩ := Option.bind_eq_some_iff.mp hw
    have ⟨⟨r, w₂⟩, h₂, hw⟩ := Option.bind_eq_some_iff.mp hw
    have ⟨⟨rs, w₃⟩, h₃, hw⟩ := Option.bind_eq_some_iff.mp hw
    cases hw
    rw [hx] at h₂
    cases h₂
    have ⟨hname, href⟩ := addString_eq h₁
    have ⟨hnames, hrefs⟩ := hi h₃
    have hcount : Stored w₁ (w₁.appendCount c.count) [c.count] fun _ => True :=
      ⟨.rfl, rfl, fun _ _ => trivial⟩
    refine ⟨?_, (href.trans <| hcount.trans hrefs).imp fun t ⟨hr, _, hrs⟩ => ?_⟩
    · rw [hnames, List.map_cons, internNames, internNames, List.foldl_cons, ← hname]
      rfl
    · exact List.forall_mem_cons.mpr ⟨hr, hrs⟩

end NcdbWriter

namespace NcdbScopeRecord

mutual

-- The numbers of the names are in a table of so many.
def RefsIn (n : Nat) : NcdbScopeRecord → Prop
  | togglePair nameRef             => nameRef.toNat < n
  | regular header _ covers children =>
    header.nameRef.toNat < n ∧ (∀ c ∈ covers, c.nameRef.toNat < n) ∧ RefsInAll n children

def RefsInAll (n : Nat) : List NcdbScopeRecord → Prop
  | []                => True
  | record :: records => record.RefsIn n ∧ RefsInAll n records

end

end NcdbScopeRecord

-- A scope whose source language, where it is stored, has a name.
def NcdbScope.LanguageNamed (s : NcdbScope) : Prop :=
  s.isTogglePair ∨ s.data.language.isSome

namespace NcdbWriter

variable {db : Ncdb} {w w' : NcdbWriter}

-- What the record of a scope without unknown fields is like.
structure WroteKnown (w w' : NcdbWriter) (s : NcdbScope) (r : NcdbScopeRecord) : Prop where
  known    : r.Known
  raw      : r.raw.isSome ↔ ∀ t ∈ s.dfs, t.LanguageNamed
  strings  : w'.strings = internNames w.strings s.streamNames
  refs     : ∃ counts, Stored w w' counts fun t => r.RefsIn t.strings.length

structure WroteKnownAll (w w' : NcdbWriter) (ss : List NcdbScope) (rs : List NcdbScopeRecord) : Prop where
  known    : NcdbScopeRecord.KnownAll rs
  raw      : (NcdbScopeRecord.rawAll rs).isSome ↔ ∀ t ∈ NcdbScope.dfsAll ss, t.LanguageNamed
  strings  : w'.strings = internNames w.strings (NcdbScope.streamNamesAll ss)
  refs     : ∃ counts, Stored w w' counts fun t => NcdbScopeRecord.RefsInAll t.strings.length rs

mutual

theorem writeScope_known : (s : NcdbScope) → {w w' : NcdbWriter} → {r : NcdbScopeRecord} →
    (∀ t ∈ s.dfs, t.Known) → w.writeScope db s = some (r, w') → WroteKnown w w' s r
  | .mk d cs ss, w, w', r, hk, h => by
    rw [writeScope] at h
    split at h
    case isTrue ht =>
      have ⟨⟨nameRef, w₁⟩, hr, he⟩ := Option.map_eq_some_iff.mp h
      cases he
      have ⟨hname, href⟩ := addString_eq hr
      have hss : ss = [] := by
        simp only [NcdbScope.isTogglePair, Bool.and_eq_true, List.isEmpty_iff] at ht
        exact ht.1.1.1.1.2
      have hcounts : Stored w₁ (w₁.writeToggleCounts cs)
          [coverCountNamed cs ncdbToggleBin0To1, coverCountNamed cs ncdbToggleBin1To0] fun _ => True :=
        ⟨.rfl, by simp [writeToggleCounts, appendCount, coverCountNamed], fun _ _ => trivial⟩
      refine ⟨trivial, ?_, ?_, _, (href.trans hcounts).imp fun _ h => h.1⟩
      · refine iff_of_true rfl fun t hm => .inl ?_
        rw [NcdbScope.dfs_of_isTogglePair ht, List.mem_singleton] at hm
        exact hm ▸ ht
      · rw [NcdbScope.streamNames, if_pos ht, hss]
        exact hname
    case isFalse ht =>
      have ⟨⟨header, w₁⟩, hh, h⟩ := Option.bind_eq_some_iff.mp h
      have ⟨⟨covers, w₂⟩, hc, h⟩ := Option.bind_eq_some_iff.mp h
      have ⟨⟨children, w₃⟩, hs, h⟩ := Option.bind_eq_some_iff.mp h
      cases h
      rw [NcdbScope.dfs, List.forall_mem_cons] at hk
      have ⟨hd, hplain⟩ := hk.1.resolve_left ht
      have ⟨hknown, _, hlang, hname, _, href⟩ := writeHeader_known hd hplain hh
      have ⟨hnames, hrefs⟩ := writeCovers_known hknown.extCovers hc
      have hsub := writeScopes_known ss hk.2 hs
      have ⟨counts, hsubrefs⟩ := hsub.refs
      refine ⟨⟨hknown, hsub.known⟩, ?_, ?_, _, href.trans (hrefs.trans hsubrefs)⟩
      · have hn : (NcdbScope.mk d cs ss).LanguageNamed ↔ header.language.isSome := by
          rw [hlang]
          exact or_iff_right ht
        rw [NcdbScope.dfs, List.forall_mem_cons, hn, ← hsub.raw, NcdbScopeRecord.raw]
        cases header.language <;> cases NcdbScopeRecord.rawAll children <;> simp
      · rw [hsub.strings, hnames, hname, NcdbScope.streamNames, if_neg ht, ← internNames_append]
        rfl

theorem writeScopes_known : (ss : List NcdbScope) → {w w' : NcdbWriter} → {rs : List NcdbScopeRecord} →
    (∀ t ∈ NcdbScope.dfsAll ss, t.Known) → w.writeScopes db ss = some (rs, w') →
    WroteKnownAll w w' ss rs
  | [], w, w', rs, hk, h => by
    cases h
    exact ⟨trivial, iff_of_true rfl nofun, rfl, [], .refl fun _ => trivial⟩
  | s :: ss, w, w', rs, hk, h => by
    have ⟨⟨r, w₁⟩, h₁, h⟩ := Option.bind_eq_some_iff.mp h
    have ⟨⟨rs, w₂⟩, h₂, h⟩ := Option.bind_eq_some_iff.mp h
    cases h
    rw [NcdbScope.dfsAll, List.forall_mem_append] at hk
    have hs := writeScope_known s hk.1 h₁
    have hss := writeScopes_known ss hk.2 h₂
    have ⟨counts, href⟩ := hs.refs
    have ⟨counts', hrefs⟩ := hss.refs
    refine ⟨⟨hs.known, hss.known⟩, ?_, ?_, _, href.trans hrefs⟩
    · rw [NcdbScope.dfsAll, List.forall_mem_append, ← hs.raw, ← hss.raw, NcdbScopeRecord.rawAll]
      cases r.raw <;> cases NcdbScopeRecord.rawAll rs <;> simp
    · rw [hss.strings, hs.strings, NcdbScope.streamNamesAll, internNames_append]

end

end NcdbWriter

-- What the other side makes of a tree that the library reads.

def NcdbCover.raw (c : NcdbCover) : RawItem :=
  ⟨c.type.toNat, c.name, c.count.toNat⟩

namespace NcdbScope

mutual

def raw : NcdbScope → RawScope
  | mk d cs ss => .mk d.type.toNat d.name (cs.map NcdbCover.raw) (rawAll ss)

def rawAll : List NcdbScope → List RawScope
  | []      => []
  | s :: ss => s.raw :: rawAll ss

end

mutual

-- A scope as it is created in a scope of some type.
def crossRead (parent : Option Nat) : NcdbScope → RawScope
  | mk d cs ss =>
    let type := createdType parent d.type.toNat
    let items := cs.map NcdbCover.raw
    .create type d.name items (crossReadAll (some type) (RawScope.initialScopes type items) ss)

def crossReadAll (parent : Option Nat) (siblings : List RawScope) : List NcdbScope → List RawScope
  | []      => siblings
  | s :: ss => crossReadAll parent (RawScope.add parent siblings (s.crossRead parent)) ss

end

end NcdbScope

namespace NcdbTables

variable {t : NcdbTables} {files : List String}

theorem getElem?_strings {ref : UInt64} (h : ref.toNat < t.strings.length) :
    t.strings[ref.toNat]? = some (t.stringsGet ref) := by
  rw [stringsGet, List.getElem?_eq_getElem h, Option.getD_some]

theorem readRawItems_readCovers {covers : List NcdbCoverRecord} (type atLeast : UInt64)
    (counts : List UInt64) (h : ∀ c ∈ covers, c.nameRef.toNat < t.strings.length) :
    (ScopeTreeReader.mk t.strings files).readRawItems type.toNat (covers.map (·.nameRef.toNat))
        (counts.map (·.toNat))
      = some ((t.readCovers type atLeast covers counts).fst.map NcdbCover.raw,
        (t.readCovers type atLeast covers counts).snd.map (·.toNat)) := by
  induction covers generalizing counts
  case nil => rfl
  case cons c covers hi =>
    have ⟨hc, hcs⟩ := List.forall_mem_cons.mp h
    have hi := hi counts.tail hcs
    have hn : (ScopeTreeReader.mk t.strings files).strings[c.nameRef.toNat]? = some (t.stringsGet c.nameRef) :=
      getElem?_strings hc
    have hh : (counts.map (·.toNat)).headD 0 = (counts.headD 0).toNat := by cases counts <;> rfl
    rw [List.map_cons, ScopeTreeReader.readRawItems, hn, ← List.map_tail]
    simp only [Option.bind_eq_bind, Option.bind_some, hi, hh]
    rfl

theorem createdType_branch (parent : Option Nat) :
    createdType parent ncdbScopeBranch.toNat = ncdbScopeBranch.toNat := by
  rw [createdType]
  split <;> rfl

theorem crossRead_readTogglePair (parent : Option Nat) (name : String) (count01 count10 : UInt64) :
    (readTogglePair name count01 count10).crossRead parent
      = .togglePair name count01.toNat count10.toNat := by
  rw [readTogglePair, NcdbScope.crossRead]
  simp only [createdType_branch]
  rfl

theorem getD_map_toNat (counts : List UInt64) (n : Nat) :
    (counts.map (·.toNat)).getD n 0 = (counts.getD n 0).toNat := by
  simp only [List.getD_eq_getElem?_getD, List.getElem?_map]
  cases counts[n]? <;> rfl

mutual

theorem readRawScope_readScope : (record : NcdbScopeRecord) → (parent : Option Nat) →
    (counts : List UInt64) → {r : RawRecord} → record.RefsIn t.strings.length →
    record.raw = some r →
    (ScopeTreeReader.mk t.strings files).readRawScope parent r (counts.map (·.toNat))
      = some ((t.readScope record counts).fst.crossRead parent,
        (t.readScope record counts).snd.map (·.toNat))
  | .togglePair nameRef, parent, counts, r, hn, h => by
    cases h
    rw [ScopeTreeReader.readRawScope, readScope, crossRead_readTogglePair, getD_map_toNat, getD_map_toNat,
      ← List.map_drop]
    exact bind_of_eq_some (getElem?_strings hn) _
  | .regular header coverType covers children, parent, counts, r, hn, h => by
    have ⟨hn, hcovers, hn'⟩ := hn
    have ⟨_, _, h⟩ := Option.bind_eq_some_iff.mp h
    have ⟨rs, hrs, h⟩ := Option.bind_eq_some_iff.mp h
    cases h
    have htype : (coverType.map (·.toNat)).getD 0 = (coverType.getD 0).toNat := by cases coverType <;> rfl
    have hitems := @readRawItems_readCovers t files covers (coverType.getD 0)
      (header.atLeast.getD (coverDefaultAtLeast (coverType.getD 0))) counts hcovers
    rw [ScopeTreeReader.readRawScope, readScope, htype]
    refine (bind_of_eq_some (getElem?_strings hn) _).trans ?_
    refine (bind_of_eq_some hitems _).trans ?_
    exact bind_of_eq_some (readRawScopes_readScopes children _ _ _ hn' hrs) _

theorem readRawScopes_readScopes : (records : List NcdbScopeRecord) → (parent : Option Nat) →
    (siblings : List RawScope) → (counts : List UInt64) → {rs : List RawRecord} →
    NcdbScopeRecord.RefsInAll t.strings.length records → NcdbScopeRecord.rawAll records = some rs →
    (ScopeTreeReader.mk t.strings files).readRawScopes parent siblings rs (counts.map (·.toNat))
      = some (NcdbScope.crossReadAll parent siblings (t.readScopes records counts).fst,
        (t.readScopes records counts).snd.map (·.toNat))
  | [], parent, siblings, counts, rs, _, h => by
    cases h
    rfl
  | record :: records, parent, siblings, counts, rs, hn, h => by
    have ⟨r, hr, h⟩ := Option.bind_eq_some_iff.mp h
    have ⟨rs, hrs, h⟩ := Option.bind_eq_some_iff.mp h
    cases h
    have hs := readRawScope_readScope record parent counts hn.1 hr
    have hss := readRawScopes_readScopes records parent
      (RawScope.add parent siblings ((t.readScope record counts).fst.crossRead parent))
      (t.readScope record counts).snd hn.2 hrs
    rw [ScopeTreeReader.readRawScopes, hs]
    exact hss

end

end NcdbTables
