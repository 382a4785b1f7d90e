import Covsight.NcdbC.Theorems.ScopeTree

-- When the scope tree stream is told apart from the index of design units behind it.

-- Bytes that end in the magic, after a number that is a position in what comes before.
def EndsLikeTrailer (bytes : List UInt8) : Prop :=
  ∃ before offset, bytes = before ++ (encodeLe 8 offset ++ trailerMagic) ∧ offset < before.length ∧
    offset < sizeLimit

theorem encodeLe_decodeLe (bytes : List UInt8) : encodeLe bytes.length (decodeLe bytes) = bytes := by
  induction bytes
  case nil => rfl
  case cons b bytes hi =>
    have hb : (b.toNat + 256 * decodeLe bytes).toUInt8 = b := by
      rw [← UInt8.toNat_inj]
      simp
    have hd : (b.toNat + 256 * decodeLe bytes) / 256 = decodeLe bytes := by
      have := b.toNat_lt
      omega
    rw [List.length_cons, decodeLe, encodeLe, hb, hd, hi]

theorem endsLikeTrailer_of_trailerOffset {data : List UInt8} {offset : Nat}
    (hl : data.length < sizeLimit) (h : trailerOffset data = some offset) :
    EndsLikeTrailer data ∧ offset < data.length := by
  simp only [trailerOffset, Option.ite_none_right_eq_some, Option.some.injEq] at h
  obtain ⟨⟨hsize, hmagic, hlt⟩, ho⟩ := h
  have hmid : ((data.drop (data.length - 12)).take 8).length = 8 := by simp; omega
  have hsplit : data = data.take (data.length - 12) ++
      ((data.drop (data.length - 12)).take 8 ++ data.drop (data.length - 4)) := by
    have hd : data.drop (data.length - 4) = (data.drop (data.length - 12)).drop 8 := by
      rw [List.drop_drop]
      congr 1
      omega
    rw [hd, List.take_append_drop, List.take_append_drop]
  have hle := encodeLe_decodeLe ((data.drop (data.length - 12)).take 8)
  rw [hmid, ho] at hle
  rw [ho] at hlt
  have hbefore : (data.take (data.length - 12)).length = data.length - 12 := by simp
  refine ⟨⟨data.take (data.length - 12), offset, ?_, by omega, by omega⟩, by omega⟩
  rw [hle, ← hmagic]
  exact hsplit

theorem trailerOffset_eq_none_iff {data : List UInt8} (hl : data.length < sizeLimit) :
    trailerOffset data = none ↔ ¬EndsLikeTrailer data := by
  constructor
  · intro h ⟨before, offset, hd, hlt, hlt'⟩
    rw [hd, trailerOffset_footer hlt hlt'] at h
    cases h
  · intro h
    cases ho : trailerOffset data
    case none   => rfl
    case some _ => exact absurd (endsLikeTrailer_of_trailerOffset hl ho).1 h

theorem decodeDuEntry_append (e : UInt64 × UInt64) (rest : List UInt8) :
    decodeDuEntry ((encodeUInt64 e.1 ++ encodeUInt64 e.2) ++ rest) = some (e, rest) := by
  simp [decodeDuEntry, List.append_assoc, decodeUInt64_encodeUInt64]

-- Decoding the index gives the entries back.
theorem decodeDuIndex_encode {entries : List (UInt64 × UInt64)} (h : entries.length < sizeLimit) :
    decodeDuIndex (trailerMagic ++ [1, 0] ++ encodeDuIndex entries) = some entries := by
  have hmany := decodeMany_encodeVarint (fun e _ => decodeDuEntry_append e) h []
  rw [List.append_nil] at hmany
  obtain ⟨⟨count, bytes⟩, hc, hmany⟩ := Option.bind_eq_some_iff.mp hmany
  have hsix : (trailerMagic ++ [1, 0] ++ encodeDuIndex entries).drop 6 = encodeDuIndex entries := rfl
  rw [decodeDuIndex, if_pos ⟨by simp [trailerMagic], rfl, rfl⟩, hsix, encodeDuIndex, hc]
  simp only [Option.bind_eq_bind, Option.bind_some, hmany, Option.pure_def]

namespace NcdbWriter

-- What the index of design units says.
def duEntries (db : Ncdb) (w : NcdbWriter) : List (UInt64 × UInt64) :=
  ((w.addDuNames db.collectDus).fst.mergeSort fun a b => decide (a.2.1 ≤ b.2.1)).map
    fun (nameIdx, _, dfs) => (nameIdx, UInt64.ofNat dfs)

theorem length_duEntries (db : Ncdb) (w : NcdbWriter) :
    (w.duEntries db).length = db.collectDus.length := by
  have hl : ∀ (dus : List (String × Nat)) (w : NcdbWriter),
      (w.addDuNames dus).fst.length = dus.length := by
    intro dus
    induction dus
    case nil            => exact fun _ => rfl
    case cons du dus hi => exact fun _ => congrArg Nat.succ (hi _)
  rw [duEntries, List.length_map, List.length_mergeSort, hl]

theorem writeScopeTrailer_fst (db : Ncdb) (w : NcdbWriter) (offset : Nat) :
    (w.writeScopeTrailer db offset).fst
      = if db.collectDus = [] then [] else encodeTrailer offset (w.duEntries db) := by
  rw [writeScopeTrailer]
  split <;> rfl

end NcdbWriter

-- Splitting a stream into the scope records and, where there are design units, their index.
def Ncdb.Framed (db : Ncdb) (strings : List String) (data : List UInt8) : Prop :=
  ∃ records w,
    NcdbWriter.writeScopes db ⟨⟨strings, db.sources⟩, []⟩ db.roots = some (records, w) ∧
    (splitTrailer data).1 = NcdbScopeRecord.encodeAll records ∧
    (splitTrailer data).2.map decodeDuIndex
      = if db.collectDus = [] then none else some (some (w.duEntries db))

theorem splitTrailer_encodeTrailer {main : List UInt8} (h : main.length < sizeLimit)
    {entries : List (UInt64 × UInt64)} (he : entries.length < sizeLimit) :
    (splitTrailer (main ++ encodeTrailer main.length entries)).1 = main ∧
    (splitTrailer (main ++ encodeTrailer main.length entries)).2.map decodeDuIndex
      = some (some entries) := by
  obtain ⟨index, hi⟩ : ∃ index, index = trailerMagic ++ [1, 0] ++ encodeDuIndex entries := ⟨_, rfl⟩
  have hlen : (main ++ encodeTrailer main.length entries).length - 12 = (main ++ index).length := by
    simp [encodeTrailer, hi, trailerMagic]
    omega
  have htake : (main ++ encodeTrailer main.length entries).take (main ++ index).length
      = main ++ index := by
    rw [encodeTrailer, ← hi, ← List.append_assoc, List.take_left' rfl]
  rw [splitTrailer, trailerOffset_encodeTrailer h]
  refine ⟨List.take_left' rfl, ?_⟩
  rw [Option.map_some, hlen, htake, List.drop_left' rfl, hi, decodeDuIndex_encode he]

namespace Ncdb

variable {db : Ncdb} {strings : List String} {out : NcdbScopeTree}

theorem scopeTreeSerialize_data (h : db.scopeTreeSerialize strings = some out) :
    ∃ records w,
      NcdbWriter.writeScopes db ⟨⟨strings, db.sources⟩, []⟩ db.roots = some (records, w) ∧
      out.data.length < sizeLimit ∧ out.data = NcdbScopeRecord.encodeAll records ++
        (if db.collectDus = [] then [] else
          encodeTrailer (NcdbScopeRecord.encodeAll records).length (w.duEntries db)) := by
  have ⟨⟨records, w⟩, hw, h⟩ := Option.bind_eq_some_iff.mp h
  have ⟨hl, ho⟩ := Option.ite_none_right_eq_some.mp h
  have hdata : out.data = NcdbScopeRecord.encodeAll records ++
      (w.writeScopeTrailer db (NcdbScopeRecord.encodeAll records).length).fst := by
    cases ho
    rfl
  rw [NcdbWriter.writeScopeTrailer_fst] at hdata
  refine ⟨records, w, hw, ?_, hdata⟩
  cases ho
  exact hl

theorem length_collectDus_le (db : Ncdb) : db.collectDus.length ≤ db.dfsFlatten.length := by
  have hl := List.length_filterMap_le (fun (p : NcdbScope × Nat) =>
    if p.1.data.type &&& ncdbDuTypeMask ≠ 0 then some (p.1.data.name, p.2) else none)
    db.dfsFlatten.zipIdx
  rwa [List.length_zipIdx] at hl

-- Records that end like a trailer are cut short.
theorem Framed.not_endsLikeTrailer (hf : db.Framed strings out.data)
    (h : db.scopeTreeSerialize strings = some out) (hd : db.collectDus = []) :
    ¬EndsLikeTrailer out.data := by
  have ⟨records, w, hw, hl, hdata⟩ := scopeTreeSerialize_data h
  have ⟨records', w', hw', hmain, _⟩ := hf
  cases hw.symm.trans hw'
  rw [if_pos hd, List.append_nil] at hdata
  intro hends
  cases ho : trailerOffset out.data
  case none => exact (trailerOffset_eq_none_iff hl).mp ho hends
  case some offset =>
    have hlt := (endsLikeTrailer_of_trailerOffset hl ho).2
    have hlen := congrArg List.length hmain
    rw [splitTrailer, ho, ← hdata, List.length_take_of_le (Nat.le_of_lt hlt)] at hlen
    exact absurd hlen (Nat.ne_of_lt hlt)

theorem framed_of_not_endsLikeTrailer (h : db.scopeTreeSerialize strings = some out)
    (hn : db.collectDus = [] → ¬EndsLikeTrailer out.data) : db.Framed strings out.data := by
  have ⟨records, w, hw, hl, hdata⟩ := scopeTreeSerialize_data h
  by_cases hd : db.collectDus = []
  case pos =>
    rw [if_pos hd, List.append_nil] at hdata
    refine ⟨records, w, hw, ?_⟩
    rw [splitTrailer, (trailerOffset_eq_none_iff hl).mpr (hn hd), if_pos hd]
    exact ⟨hdata, rfl⟩
  case neg =>
    rw [if_neg hd] at hdata
    have hdfs : db.dfsFlatten.length ≤ _ := NcdbScope.length_dfsAll_le _ hw
    have hdus := db.length_collectDus_le
    rw [hdata, List.length_append] at hl
    have he : (w.duEntries db).length < sizeLimit := by
      rw [NcdbWriter.length_duEntries]
      omega
    have hmain : (NcdbScopeRecord.encodeAll records).length < sizeLimit := by omega
    have ⟨hmain, hindex⟩ := splitTrailer_encodeTrailer hmain he
    rw [hdata]
    refine ⟨records, w, hw, hmain, ?_⟩
    rw [hindex, if_neg hd]

-- A stream is split where it was put together if and only if, where there are no design units, it
-- does not happen to end like a trailer.
theorem framed_iff (h : db.scopeTreeSerialize strings = some out) :
    db.Framed strings out.data ↔ (db.collectDus = [] → ¬EndsLikeTrailer out.data) :=
  ⟨fun hf => hf.not_endsLikeTrailer h, framed_of_not_endsLikeTrailer h⟩

theorem framed_iff_twoStatements :
    (twoStatements 0).Framed [""] plainTree.data ↔
      ((twoStatements 0).collectDus = [] → ¬EndsLikeTrailer plainTree.data) :=
  @framed_iff (twoStatements 0) [""] plainTree (Option.some_get _).symm

-- Covers whose names have the numbers of the bytes of the magic, after eight without a name. One
-- character each stands for the numbers from 1 on.
def imitation : Ncdb where
  roots :=
    let name (n : Nat) : String := String.singleton (Char.ofNat (32 + n))
    let names := (List.range 84).map (fun n => name (n + 1)) ++ List.replicate 8 "" ++
      [name 0x4E, name 0x54, name 0x52, name 0x4C]
    [.mk { type := 0x40, name := "" } (names.map fun name => .create 0x20 name 0) []]

theorem imitation_not_framed :
    ¬∀ db out, Ncdb.scopeTreeSerialize db [""] = some out → db.Framed [""] out.data := by
  intro h
  have hs : (imitation.scopeTreeSerialize [""]).map (fun out => trailerOffset out.data)
      = some (some 0) := by
    decide +kernel
  have ⟨out, ho, htrailer⟩ := Option.map_eq_some_iff.mp hs
  have ⟨_, _, _, hl, _⟩ := scopeTreeSerialize_data ho
  exact (h imitation out ho).not_endsLikeTrailer ho rfl (endsLikeTrailer_of_trailerOffset hl htrailer).1

end Ncdb
