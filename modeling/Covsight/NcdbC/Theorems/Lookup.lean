import Covsight.NcdbC.UniqueId
import Covsight.NcdbC.Theorems.UcisCover
import Covsight.NcdbC.Theorems.UniqueId

-- When the lookups with what was read from a file give what a scan of the tree gives.

-- What the unique id and the name of a scope depend on.
def NcdbScopeData.named (d : NcdbScopeData) : UInt64 × String :=
  (d.type, d.name)

abbrev NamedPointer := NcdbScopePath × List (UInt64 × String)

def namedPointer (e : NcdbScopePath × NcdbChain) : NamedPointer :=
  (e.1, e.2.map NcdbScopeData.named)

namespace NcdbScope

@[simp]
theorem data_mk (d : NcdbScopeData) (cs : List NcdbCover) (ss : List NcdbScope) :
    (mk d cs ss).data = d :=
  rfl

theorem pointersAll_append (p : NcdbScopePath) (start : Nat) (above : NcdbChain)
    (ss rest : List NcdbScope) : pointersAll p start above (ss ++ rest)
      = pointersAll p start above ss ++ pointersAll p (start + ss.length) above rest := by
  induction ss generalizing start
  case nil => rfl
  case cons s ss hi =>
    rw [List.cons_append, pointersAll, pointersAll, hi, List.append_assoc, List.length_cons,
      Nat.add_assoc, Nat.add_comm 1]

mutual

theorem snd_pointers (p : NcdbScopePath) (above : NcdbChain) : (s : NcdbScope) →
    (s.pointers p above).map (·.2) = s.chains above
  | mk d cs ss => by rw [pointers, chains, List.map_cons, snd_pointersAll]

theorem snd_pointersAll (p : NcdbScopePath) (start : Nat) (above : NcdbChain) :
    (ss : List NcdbScope) → (pointersAll p start above ss).map (·.2) = chainsAll above ss
  | []      => rfl
  | s :: ss => by
    rw [pointersAll, chainsAll, List.map_append, snd_pointers, snd_pointersAll]

end

theorem named_restored (s : NcdbScope) : s.restored.data.named = s.data.named := by
  have ⟨d, cs, ss⟩ := s
  rw [restored]
  split
  case isFalse => rfl
  case isTrue hp =>
    have ⟨ht, _⟩ := covers_of_isTogglePair hp
    change d.type = _ at ht
    exact Prod.ext ht.symm rfl

theorem pointers_eq (p : NcdbScopePath) (above : NcdbChain) (s : NcdbScope) :
    s.pointers p above = (p, above ++ [s.data]) :: pointersAll p 0 (above ++ [s.data]) s.children := by
  cases s
  rfl

mutual

-- Reading a tree back keeps its pointers, and the types and names on the way to them.
theorem namedPointer_restored (p : NcdbScopePath) {above above' : NcdbChain}
    (h : above'.map NcdbScopeData.named = above.map NcdbScopeData.named) : (s : NcdbScope) →
    (s.restored.pointers p above').map namedPointer = (s.pointers p above).map namedPointer
  | mk d cs ss => by
    have hname := named_restored (mk d cs ss)
    have habove : (above' ++ [(mk d cs ss).restored.data]).map NcdbScopeData.named
        = (above ++ [(mk d cs ss).data]).map NcdbScopeData.named := by
      rw [List.map_append, List.map_append, h, List.map_singleton, List.map_singleton, hname]
    rw [pointers_eq, pointers_eq, List.map_cons, List.map_cons, namedPointer, namedPointer, habove,
      children_restored, ← restoredAll_eq_map]
    exact congrArg _ <| namedPointer_restoredAll p 0 habove ss

theorem namedPointer_restoredAll (p : NcdbScopePath) (start : Nat) {above above' : NcdbChain}
    (h : above'.map NcdbScopeData.named = above.map NcdbScopeData.named) : (ss : List NcdbScope) →
    (pointersAll p start above' (restoredAll ss)).map namedPointer
      = (pointersAll p start above ss).map namedPointer
  | []      => rfl
  | s :: ss => by
    rw [restoredAll, pointersAll, pointersAll, List.map_append, List.map_append,
      namedPointer_restored _ h s, namedPointer_restoredAll p (start + 1) h ss]

end

-- A path along the last children.
def OnLastBranch : (path : List Nat) → NcdbScope → Prop
  | [],      _ => True
  | i :: is, s => i + 1 = s.children.length ∧ ∀ c ∈ s.children[i]?, c.OnLastBranch is

-- The scopes on the way to a descendant.
def chainTo : (path : List Nat) → NcdbScope → Option NcdbChain
  | [],      s => some [s.data]
  | i :: is, s => (s.children[i]?.bind (·.chainTo is)).map (s.data :: ·)

def addChild (d : NcdbScopeData) (s : NcdbScope) : NcdbScope :=
  mk s.data s.covers (s.children ++ [mk d [] []])

end NcdbScope

theorem modify_concat_length {α : Type*} (xs : List α) (x : α) (f : α → α) :
    (xs ++ [x]).modify xs.length f = xs ++ [f x] := by
  induction xs
  case nil          => rfl
  case cons y ys hi => exact congrArg (y :: ·) hi

theorem exists_concat_of_getElem? {α : Type*} {xs : List α} {i : Nat} {x : α}
    (h : xs[i]? = some x) (hl : i + 1 = xs.length) : ∃ ys, xs = ys ++ [x] ∧ ys.length = i := by
  have hx : xs.getLast? = some x := by
    rw [List.getLast?_eq_getElem?, ← hl]
    exact h
  refine ⟨xs.dropLast, ?_, by rw [List.length_dropLast, ← hl, Nat.add_sub_cancel]⟩
  exact (List.dropLast_append_getLast? x hx).symm

namespace NcdbScope

-- A scope that is created on the last branch comes last.
theorem pointers_addChild {path : List Nat} {s : NcdbScope} {chain : NcdbChain} (d : NcdbScopeData)
    (h : s.OnLastBranch path) (hc : s.chainTo path = some chain) (p : NcdbScopePath)
    (above : NcdbChain) : ∃ q, (modifyDescendant (addChild d) path s).pointers p above
      = s.pointers p above ++ [(q, above ++ chain ++ [d])] := by
  induction path generalizing s p above chain
  case nil =>
    cases hc
    refine ⟨⟨p.root, p.path ++ [s.children.length]⟩, ?_⟩
    rw [modifyDescendant, pointers_eq, pointers_eq, addChild, data_mk, children_mk, pointersAll_append,
      Nat.zero_add]
    simp [pointersAll, pointers]
  case cons i is hi =>
    obtain ⟨hl, hlast⟩ := h
    obtain ⟨chain', hc', heq⟩ := Option.map_eq_some_iff.mp hc
    obtain ⟨c, hci, hc'⟩ := Option.bind_eq_some_iff.mp hc'
    obtain ⟨before, hbefore, hlen⟩ := exists_concat_of_getElem? hci hl
    obtain ⟨q, hq⟩ := hi (hlast c hci) hc' ⟨p.root, p.path ++ [before.length]⟩ (above ++ [s.data])
    refine ⟨q, ?_⟩
    rw [modifyDescendant, pointers_eq, pointers_eq, data_mk, children_mk, hbefore, ← hlen,
      modify_concat_length, pointersAll_append, pointersAll_append, Nat.zero_add, pointersAll,
      pointersAll, hq, pointersAll, pointersAll, ← heq]
    simp

end NcdbScope

-- What is found of a scope depends on the types and names on the way to it.

theorem uniqueId_congr {chain chain' : NcdbChain} (sep : UInt8)
    (h : chain'.map NcdbScopeData.named = chain.map NcdbScopeData.named) :
    uniqueId sep chain' = uniqueId sep chain := by
  have hflat (c : NcdbChain) : uniqueId sep c = (c.map NcdbScopeData.named).flatMap fun (type, name) =>
      sep :: (utf8Bytes (toString (typeLog2 type)) ++ 0x3A :: utf8Bytes name) := by
    rw [List.flatMap_map]
    rfl
  rw [hflat, hflat, h]

theorem fits_congr {chain chain' : NcdbChain} {sep : UInt8}
    (h : chain'.map NcdbScopeData.named = chain.map NcdbScopeData.named) :
    chain'.Fits sep ↔ chain.Fits sep := by
  have hl := congrArg List.length h
  rw [List.length_map, List.length_map] at hl
  rw [NcdbChain.Fits, NcdbChain.Fits, hl, uniqueId_congr sep h]

theorem computeUniqueId_congr {chain chain' : NcdbChain} (sep : UInt8)
    (h : chain'.map NcdbScopeData.named = chain.map NcdbScopeData.named) :
    computeUniqueId sep chain' uidBufferSize = computeUniqueId sep chain uidBufferSize := by
  ext uid
  rw [computeUniqueId_eq_some_iff, computeUniqueId_eq_some_iff, uniqueId_congr sep h, fits_congr h]

namespace Ncdb

variable {db db' : Ncdb}

theorem snd_pointersFrom (ss : List NcdbScope) (start : Nat) :
    ((ss.zipIdx start).flatMap fun (s, i) => s.pointers ⟨i, []⟩ []).map (·.2) = NcdbScope.chainsAll [] ss := by
  induction ss generalizing start
  case nil => rfl
  case cons s ss hi =>
    rw [List.zipIdx_cons, List.flatMap_cons, List.map_append, hi, NcdbScope.snd_pointers, NcdbScope.chainsAll]

theorem snd_pointers (db : Ncdb) : db.pointers.map (·.2) = db.chains :=
  snd_pointersFrom db.roots 0

theorem length_pointers (db : Ncdb) : db.pointers.length = db.dfsFlatten.length := by
  rw [← length_chains, ← snd_pointers, List.length_map]

theorem namedPointer_restored (h : db'.roots = NcdbScope.restoredAll db.roots) :
    db'.pointers.map namedPointer = db.pointers.map namedPointer := by
  rw [pointers, pointers, h, NcdbScope.restoredAll_eq_map, List.zipIdx_map, List.map_flatMap,
    List.map_flatMap, List.flatMap_map]
  exact congrArg (List.flatMap · _) (funext fun (s, i) => NcdbScope.namedPointer_restored ⟨i, []⟩ rfl s)

-- The scopes on the way to a scope that is going to be created.
def newChain (db : Ncdb) (parent : Option NcdbScopePath) (d : NcdbScopeData) : Option NcdbChain :=
  match parent with
  | none   => some [d]
  | some p => (db.roots[p.root]?.bind (·.chainTo p.path)).map (· ++ [d])

-- A scope that is created there comes after all others.
def ComesLast (db : Ncdb) (parent : Option NcdbScopePath) : Prop :=
  ∀ p ∈ parent, p.root + 1 = db.roots.length ∧ ∀ r ∈ db.roots[p.root]?, r.OnLastBranch p.path

theorem pointers_createScope {parent : Option NcdbScopePath} {d : NcdbScopeData} {chain : NcdbChain}
    (h : db.ComesLast parent) (hc : db.newChain parent d = some chain) :
    ∃ q, (db.createScope parent d).pointers = db.pointers ++ [(q, chain)] := by
  cases parent
  case none =>
    cases hc
    refine ⟨⟨db.roots.length, []⟩, ?_⟩
    rw [pointers, pointers, createScope, List.zipIdx_append, List.flatMap_append]
    simp [NcdbScope.pointers, NcdbScope.pointersAll]
  case some p =>
    have ⟨hl, hlast⟩ := h p rfl
    have ⟨chain', hc', heq⟩ := Option.map_eq_some_iff.mp hc
    have ⟨r, hr, hc'⟩ := Option.bind_eq_some_iff.mp hc'
    have ⟨before, hbefore, hlen⟩ := exists_concat_of_getElem? hr hl
    have ⟨q, hq⟩ := NcdbScope.pointers_addChild d (hlast r hr) hc' ⟨p.root, []⟩ []
    have hadd : (fun s => NcdbScope.mk s.data s.covers (s.children ++ [.mk d [] []]))
        = NcdbScope.addChild d := rfl
    refine ⟨q, ?_⟩
    rw [pointers, pointers, createScope, modifyScope, hadd]
    simp only
    rw [hbefore, ← hlen, modify_concat_length, List.zipIdx_append, List.zipIdx_append,
      List.flatMap_append, List.flatMap_append, Nat.zero_add, List.zipIdx_singleton,
      List.zipIdx_singleton, List.flatMap_singleton, List.flatMap_singleton, hlen, hq,
      List.nil_append, ← heq, List.append_assoc]

end Ncdb

-- A string that the table has at a position which is an `int`.
def Held (strings : List String) (s : String) : Prop :=
  ∃ ref, ref < intLimit ∧ strings[ref]? = some s

theorem Held.mono {strings strings' : List String} {s : String} (h : Held strings s)
    (hp : strings <+: strings') : Held strings' s := by
  have ⟨ref, hl, hs⟩ := h
  have ⟨hlt, he⟩ := List.getElem?_eq_some_iff.mp hs
  exact ⟨ref, hl, he ▸ List.prefix_iff_getElem?.mp hp ref hlt⟩

namespace NcdbWriter

variable {w w' : NcdbWriter} {s : String} {ref : UInt64}

theorem held_of_addString (h : w.addString s = some (ref, w')) : Held w'.strings s := by
  simp only [addString, Option.ite_none_right_eq_some, Option.some.injEq, Prod.mk.injEq] at h
  obtain ⟨hl, _, hw⟩ := h
  exact ⟨_, hl, hw ▸ intern.get? w.strings s⟩

-- Adding a string that is there already does not fail.
theorem addString_of_held (h : Held w.strings s) :
    ∃ ref, w.addString s = some (ref, w) ∧ w.stringsGet ref = s := by
  have ⟨i, hl, hs⟩ := h
  have hm : s ∈ w.strings := List.mem_of_getElem? hs
  have hle : w.strings.idxOf s ≤ i := by
    by_contra hn
    have hlt : i < w.strings.idxOf s := Nat.lt_of_not_le hn
    have ⟨hi, he⟩ := List.getElem?_eq_some_iff.mp hs
    have hne := List.not_of_lt_findIdx hlt
    rw [he, beq_self_eq_true] at hne
    cases hne
  have hadd : w.addString s = some (UInt64.ofNat (w.strings.idxOf s), w) := by
    simp only [addString, intern, if_pos hm, if_pos (Nat.lt_of_le_of_lt hle hl)]
  exact ⟨_, hadd, (addString_stored hadd).reads _ .rfl⟩

theorem addDuNames_of_held {dus : List (String × Nat)} (h : ∀ du ∈ dus, Held w.strings du.1) :
    (w.addDuNames dus).2 = w ∧
    ∀ e ∈ (w.addDuNames dus).1, w.stringsGet e.1 = e.2.1 ∧ (e.2.1, e.2.2) ∈ dus := by
  induction dus
  case nil => exact ⟨rfl, nofun⟩
  case cons du dus hi =>
    have ⟨name, n⟩ := du
    have ⟨hdu, hdus⟩ := List.forall_mem_cons.mp h
    have ⟨ref, hadd, hget⟩ := addString_of_held hdu
    have ⟨hw, he⟩ := hi hdus
    simp only [addDuNames, hadd, Option.getD_some]
    refine ⟨hw, fun e hm => ?_⟩
    cases hm
    case head    => exact ⟨hget, .head _⟩
    case tail hm => exact ⟨(he e hm).1, .tail _ (he e hm).2⟩

theorem held_writeHeader {db : Ncdb} {d : NcdbScopeData} {cs : List NcdbCover} {h : NcdbScopeHeader}
    (hw : w.writeHeader db d cs = some (h, w')) : Held w'.strings d.name := by
  have ⟨⟨nameRef, w₁⟩, h₁, hw⟩ := Option.bind_eq_some_iff.mp hw
  have ⟨⟨source, w₂⟩, h₂, hw⟩ := Option.bind_eq_some_iff.mp hw
  have ⟨duLink, _, hw⟩ := Option.bind_eq_some_iff.mp hw
  have ⟨⟨duSig, w₃⟩, h₃, hw⟩ := Option.bind_eq_some_iff.mp hw
  have ⟨⟨exprTerms, w₄⟩, h₄, hw⟩ := Option.bind_eq_some_iff.mp hw
  have ⟨⟨props, w₅⟩, h₅, hw⟩ := Option.bind_eq_some_iff.mp hw
  cases hw
  have hext := (addSource_stored h₂).tables.trans <| (addNonempty_stored h₃).tables.trans <|
    (addNonempty_stored h₄).tables.trans (addPropTable_stored h₅).tables
  exact (held_of_addString h₁).mono hext.strings

open NcdbScope (dfs dfsAll)

mutual

-- The names of all scopes are in the table.
theorem held_writeScope {db : Ncdb} (hn : db.dfsFlatten.length < sizeLimit) : (s : NcdbScope) →
    {w w' : NcdbWriter} → {r : NcdbScopeRecord} → w.writeScope db s = some (r, w') →
    ∀ t ∈ s.dfs, Held w'.strings t.data.name
  | .mk d cs ss, w, w', r, h => by
    rw [writeScope] at h
    split at h
    case isTrue ht =>
      have ⟨⟨nameRef, w₁⟩, hr, he⟩ := Option.map_eq_some_iff.mp h
      cases he
      rw [NcdbScope.dfs_of_isTogglePair ht]
      intro t hm
      rw [List.mem_singleton.mp hm]
      have hheld := held_of_addString hr
      exact hheld
    case isFalse =>
      have ⟨⟨header, w₁⟩, hh, h⟩ := Option.bind_eq_some_iff.mp h
      have ⟨⟨covers, w₂⟩, hc, h⟩ := Option.bind_eq_some_iff.mp h
      have ⟨⟨children, w₃⟩, hs, h⟩ := Option.bind_eq_some_iff.mp h
      cases h
      have ⟨_, _, hext, _⟩ := writeHeader_stored hh hn
      have ⟨_, hcovers⟩ := writeCovers_stored hc fun hf c hm => by
        rw [hext, List.any_eq_false] at hf
        simpa using hf c hm
      have ⟨_, hsub⟩ := (writeScopes_wrote hn ss hs).stored
      rw [dfs]
      refine List.forall_mem_cons.mpr ⟨?_, held_writeScopes hn ss hs⟩
      exact (held_writeHeader hh).mono (hcovers.tables.trans hsub.tables).strings

theorem held_writeScopes {db : Ncdb} (hn : db.dfsFlatten.length < sizeLimit) :
    (ss : List NcdbScope) → {w w' : NcdbWriter} → {rs : List NcdbScopeRecord} →
    w.writeScopes db ss = some (rs, w') → ∀ t ∈ dfsAll ss, Held w'.strings t.data.name
  | [], _, _, _, _ => nofun
  | s :: ss, w, w', rs, h => by
    have ⟨⟨r, w₁⟩, h₁, h⟩ := Option.bind_eq_some_iff.mp h
    have ⟨⟨rs, w₂⟩, h₂, h⟩ := Option.bind_eq_some_iff.mp h
    cases h
    have ⟨_, hss⟩ := (writeScopes_wrote hn ss h₂).stored
    refine List.forall_mem_append.mpr ⟨fun t hm => ?_, held_writeScopes hn ss h₂⟩
    exact (held_writeScope hn s h₁ t hm).mono hss.tables.strings

end

end NcdbWriter

-- The types of design units are in the low half.
theorem duTypeMask_iff (type : UInt64) :
    type.toUInt32 &&& ncdbDuTypeMask.toUInt32 ≠ 0 ↔ type &&& ncdbDuTypeMask ≠ 0 := by
  have hlow : (type &&& ncdbDuTypeMask).toUInt32.toUInt64 = type &&& ncdbDuTypeMask := by
    rw [← UInt64.toNat_inj, UInt32.toNat_toUInt64, UInt64.toNat_toUInt32]
    refine Nat.mod_eq_of_lt (Nat.lt_of_le_of_lt ?_ (by decide : ncdbDuTypeMask.toNat < 2 ^ 32))
    rw [UInt64.toNat_and]
    exact Nat.and_le_right
  rw [← UInt64.toUInt32_and, not_iff_not]
  constructor
  · intro h
    rw [← hlow, h]
    rfl
  · exact fun h => by rw [h]; rfl

namespace Ncdb

variable {db db' : Ncdb} {out : NcdbScopeTree}

theorem mem_collectDus {name : String} {n : Nat} (h : (name, n) ∈ db.collectDus) :
    ∃ s, db.dfsFlatten[n]? = some s ∧ s.data.type &&& ncdbDuTypeMask ≠ 0 ∧ s.data.name = name := by
  have ⟨⟨s, i⟩, hm, he⟩ := List.mem_filterMap.mp h
  have ⟨hdu, he⟩ := Option.ite_none_right_eq_some.mp he
  cases he
  exact ⟨s, List.mk_mem_zipIdx_iff_getElem?.mp hm, hdu, rfl⟩

theorem length_dfsFlatten_lt (h : db.scopeTreeSerialize [""] = some out) :
    db.dfsFlatten.length < sizeLimit := by
  have ⟨records, w, hw, hl, hdata⟩ := scopeTreeSerialize_data h
  have hle : db.dfsFlatten.length ≤ _ := NcdbScope.length_dfsAll_le _ hw
  rw [hdata, List.length_append] at hl
  omega

-- What is read of the index of design units.
theorem readDuLookup_eq (h : db.scopeTreeSerialize [""] = some out) (hc : db.TrailerClear out.data) :
    ∃ entries : List (UInt64 × UInt64), db'.readDuLookup out.toNcdbTables out.data = entries.map
        (fun (nameIdx, dfsIdx) => (out.stringsGet nameIdx, (db'.scopeByDfsIndex dfsIdx).map (·.1))) ∧
      ∀ e ∈ entries, ∃ n, e.2 = UInt64.ofNat n ∧ (out.stringsGet e.1, n) ∈ db.collectDus := by
  obtain ⟨records, w, hw, hl, _⟩ := scopeTreeSerialize_data h
  have hframed : db.Framed [""] out.data := framed_of_not_endsLikeTrailer h fun hd =>
    (trailerOffset_eq_none_iff hl).mp (hc hd)
  obtain ⟨records', w', hw', _, hindex⟩ := hframed
  cases hw.symm.trans hw'
  have hheld : ∀ du ∈ db.collectDus, Held w.strings du.1 := by
    intro (name, n) hm
    obtain ⟨s, hs, _, hname⟩ := mem_collectDus hm
    rw [← hname]
    exact NcdbWriter.held_writeScopes (length_dfsFlatten_lt h) db.roots hw s (List.mem_of_getElem? hs)
  obtain ⟨hsame, hadd⟩ := NcdbWriter.addDuNames_of_held hheld
  have hout : out.toNcdbTables = w.toNcdbTables := by
    obtain ⟨⟨records', w'⟩, hw', h⟩ := Option.bind_eq_some_iff.mp h
    cases hw.symm.trans hw'
    obtain ⟨_, ho⟩ := Option.ite_none_right_eq_some.mp h
    cases ho
    change (w.writeScopeTrailer db _).2.toNcdbTables = _
    rw [NcdbWriter.writeScopeTrailer]
    split
    case isTrue  => rfl
    case isFalse => rw [hsame]
  have hread : ((splitTrailer out.data).2.bind decodeDuIndex).getD [] = w.duEntries db := by
    split at hindex
    case isTrue hd =>
      have hlen := w.length_duEntries db
      rw [hd] at hlen
      rw [Option.map_eq_none_iff.mp hindex, List.eq_nil_of_length_eq_zero hlen]
      rfl
    case isFalse =>
      obtain ⟨bytes, hb, he⟩ := Option.map_eq_some_iff.mp hindex
      rw [hb, Option.bind_some, he, Option.getD_some]
  refine ⟨w.duEntries db, by rw [readDuLookup, hread], fun e hm => ?_⟩
  obtain ⟨e', hm', he⟩ := List.mem_map.mp hm
  obtain ⟨hget, hdu⟩ := hadd e' ((List.mergeSort_perm ..).mem_iff.mp hm')
  rw [← he]
  exact ⟨e'.2.2, rfl, by rw [hout, hget]; exact hdu⟩

-- A design unit that was read is a design unit of that name.
theorem mem_readDuLookup (h : db.scopeTreeSerialize [""] = some out) (hc : db.TrailerClear out.data)
    (hnamed : db'.pointers.map namedPointer = db.pointers.map namedPointer) {name : String}
    {p : Option NcdbScopePath} (hm : (name, p) ∈ db'.readDuLookup out.toNcdbTables out.data) :
    ∃ e ∈ db'.pointers, p = some e.1 ∧ isDuNamed name e.2 := by
  have ⟨entries, heq, hentries⟩ := @readDuLookup_eq db db' out h hc
  rw [heq] at hm
  have ⟨e, he, hep⟩ := List.mem_map.mp hm
  have ⟨n, hn, hdu⟩ := hentries e he
  have ⟨s, hs, htype, hname⟩ := mem_collectDus hdu
  have ⟨hname', hp⟩ := Prod.mk.inj hep
  have hlt : n < sizeLimit :=
    Nat.lt_trans (List.getElem?_eq_some_iff.mp hs).1 (length_dfsFlatten_lt h)
  -- The scope at the position, and its pointer before and after reading.
  have hlast : db.pointers[n]?.map (·.2.getLast?) = some (some s.data) := by
    have hmap := congrArg (fun l => l[n]?) db.getLast?_chains
    rw [← snd_pointers] at hmap
    simpa [hs] using hmap
  have ⟨o, ho, hlast⟩ := Option.map_eq_some_iff.mp hlast
  have hsame := congrArg (fun l => l[n]?) hnamed
  simp only [List.getElem?_map, ho, Option.map_some] at hsame
  have ⟨o', ho', hnp⟩ := Option.map_eq_some_iff.mp hsame
  refine ⟨o', List.mem_of_getElem? ho', ?_, ?_⟩
  · rw [← hp, hn, scopeByDfsIndex, toNat_ofNat_of_lt hlt, ho']
    rfl
  · have hmap : (o'.2.map NcdbScopeData.named).getLast? = some s.data.named := by
      have h2 : o'.2.map NcdbScopeData.named = o.2.map NcdbScopeData.named := (Prod.mk.inj hnp).2
      rw [h2, List.getLast?_map, hlast]
      rfl
    rw [List.getLast?_map] at hmap
    have ⟨d, hd, hdn⟩ := Option.map_eq_some_iff.mp hmap
    have ⟨ht, hnm⟩ := Prod.mk.inj hdn
    rw [isDuNamed, hd, Option.any_some, Bool.and_eq_true, decide_eq_true_eq, decide_eq_true_eq,
      duTypeMask_iff, ht, hnm, hname]
    exact ⟨htype, hname'⟩

end Ncdb

-- Where no two elements have the same value, looking for a value finds its element.
theorem find?_of_nodup_filterMap {α β : Type*} [DecidableEq β] {f : α → Option β} {xs : List α}
    (h : (xs.filterMap f).Nodup) {a : α} (ha : a ∈ xs) {b : β} (hb : f a = some b) :
    xs.find? (fun x => f x = some b) = some a := by
  induction xs
  case nil => cases ha
  case cons x xs hi =>
    rw [List.find?_cons]
    split
    case h_1 hx =>
      have hx : f x = some b := of_decide_eq_true hx
      cases ha
      case head    => rfl
      case tail ha =>
        rw [List.filterMap_cons_some hx, List.nodup_cons] at h
        exact absurd (List.mem_filterMap.mpr ⟨a, ha, hb⟩) h.1
    case h_2 hx =>
      have hx : f x ≠ some b := of_decide_eq_false hx
      cases ha
      case head    => exact absurd hb hx
      case tail ha => exact hi (h.sublist ((List.sublist_cons_self x xs).filterMap f)) ha

-- The name of a scope that is a design unit.
def duNameOf (chain : NcdbChain) : Option String :=
  chain.getLast?.bind fun d => if d.type &&& ncdbDuTypeMask ≠ 0 then some d.name else none

theorem isDuNamed_iff {name : String} {chain : NcdbChain} :
    isDuNamed name chain ↔ duNameOf chain = some name := by
  rw [isDuNamed, duNameOf]
  cases chain.getLast?
  case none   => simp
  case some d =>
    rw [Option.any_some, Bool.and_eq_true, decide_eq_true_eq, decide_eq_true_eq, duTypeMask_iff,
      Option.bind_some, Option.ite_none_right_eq_some, Option.some.injEq]

theorem duNameOf_congr {chain chain' : NcdbChain}
    (h : chain'.map NcdbScopeData.named = chain.map NcdbScopeData.named) :
    duNameOf chain' = duNameOf chain := by
  have hlast (c : NcdbChain) : duNameOf c = (c.map NcdbScopeData.named).getLast?.bind
      fun (type, name) => if type &&& ncdbDuTypeMask ≠ 0 then some name else none := by
    rw [List.getLast?_map, Option.bind_map]
    rfl
  rw [hlast, hlast, h]

namespace Ncdb

-- The names of the design units, one for each.
def duNames (db : Ncdb) : List String :=
  db.collectDus.map (·.1)

theorem duNames_eq (db : Ncdb) : db.duNames = db.pointers.filterMap fun e => duNameOf e.2 := by
  have hname : (fun e : NcdbScopePath × NcdbChain => duNameOf e.2)
      = (fun o : Option NcdbScopeData => o.bind fun d =>
          if d.type &&& ncdbDuTypeMask ≠ 0 then some d.name else none) ∘ List.getLast? ∘ Prod.snd := rfl
  rw [hname, ← List.filterMap_map, ← List.map_map, snd_pointers, getLast?_chains, List.filterMap_map,
    duNames, collectDus, List.map_filterMap]
  have hfst : db.dfsFlatten = db.dfsFlatten.zipIdx.map (·.1) := (List.zipIdx_map_fst ..).symm
  conv_rhs => rw [hfst, List.filterMap_map]
  refine List.filterMap_congr fun (s, n) _ => ?_
  simp only [Function.comp_apply, Option.bind_some]
  split <;> rfl

end Ncdb

-- What a caller does with the scopes of a database.
inductive LookupOp
  | createScope (parent : Option NcdbScopePath) (d : NcdbScopeData)
  | reopen

namespace UcisDb

-- A database that cannot be written and read back stays as it is.
def step (x : UcisDb) : LookupOp → UcisDb
  | .createScope parent d => x.createScope parent d
  | .reopen               => x.reopen.getD x

-- With an index, a scope is only created after all others, and only if its unique id is too long or
-- that of another scope. A database is only written if no two scopes have the same unique id and no
-- two design units the same name, and if the end of its stream allows it. Hashes do not collide.
def Allowed (x : UcisDb) : LookupOp → Prop
  | .createScope parent d => x.nuidIdx ≠ none →
    x.db.ComesLast parent ∧ ∃ chain, x.db.newChain parent d = some chain ∧
      ∀ uid, x.uniqueIdOf chain = some uid → ∃ e ∈ x.db.pointers, x.uniqueIdOf e.2 = some uid
  | .reopen =>
    (x.db.uniqueIds x.pathSeparator).Nodup ∧ x.db.duNames.Nodup ∧
    HashInjective (x.db.uniqueIds x.pathSeparator) ∧
    ∀ out, x.db.scopeTreeSerialize [""] = some out → x.db.TrailerClear out.data

inductive AllowedRun : UcisDb → UcisDb → Prop
  | refl (x) : AllowedRun x x
  | step {x y} (op : LookupOp) : AllowedRun x y → y.Allowed op → AllowedRun x (y.step op)

-- The scopes that were there when the database was read, and those that were created later.
structure Loaded (x : UcisDb) (entries : List NuidEntry)
    (old later : List (NcdbScopePath × NcdbChain)) : Prop where
  nuidIdx  : x.nuidIdx = some entries
  pointers : x.db.pointers = old ++ later
  indexed  : ∀ (i : Nat) e uid, old[i]? = some e → x.uniqueIdOf e.2 = some uid →
    (uniqueIdIndexLookup entries (ncdbXxh64 uid 0)).map (·.toNat) = some i
  uids     : (old.filterMap fun e => x.uniqueIdOf e.2).Nodup
  known    : ∀ e ∈ later, ∀ uid, x.uniqueIdOf e.2 = some uid → ∃ o ∈ old, x.uniqueIdOf o.2 = some uid
  dus      : (old.filterMap fun e => duNameOf e.2).Nodup
  lookup   : ∀ name p, (name, p) ∈ x.duLookup → ∃ e ∈ old, p = some e.1 ∧ duNameOf e.2 = some name

def Sound (x : UcisDb) : Prop :=
  (x.nuidIdx = none ∧ x.duLookup = []) ∨ ∃ entries old later, x.Loaded entries old later

theorem findUniqueId_eq (x : UcisDb) (uid : List UInt8) : x.findUniqueId uid =
    (x.db.pointers.find? fun e => x.uniqueIdOf e.2 = some uid).map (·.1) :=
  rfl

namespace Loaded

variable {x : UcisDb} {entries : List NuidEntry} {old later : List (NcdbScopePath × NcdbChain)}

theorem matchScopeByUniqueId_eq (h : x.Loaded entries old later) (uid : List UInt8) :
    x.matchScopeByUniqueId uid = x.findUniqueId uid := by
  rw [matchScopeByUniqueId, h.nuidIdx, findUniqueId_eq]
  by_cases hex : ∃ e ∈ old, x.uniqueIdOf e.2 = some uid
  case pos =>
    obtain ⟨e, hm, he⟩ := hex
    obtain ⟨i, hi⟩ := List.mem_iff_getElem?.mp hm
    obtain ⟨dfsIdx, hl, hidx⟩ := Option.map_eq_some_iff.mp (h.indexed i e uid hi he)
    have hget : x.db.scopeByDfsIndex dfsIdx = some e := by
      rw [Ncdb.scopeByDfsIndex, hidx, h.pointers,
        List.getElem?_append_left (List.getElem?_eq_some_iff.mp hi).1, hi]
    have hfind := find?_of_nodup_filterMap h.uids hm he
    rw [h.pointers, List.find?_append, hfind]
    simp only [hl, Option.bind_eq_bind, Option.bind_some, hget, if_pos he]
    rfl
  case neg =>
    have hno : ∀ e ∈ x.db.pointers, x.uniqueIdOf e.2 ≠ some uid := by
      intro e hm he
      rw [h.pointers] at hm
      cases List.mem_append.mp hm
      case inl hm => exact hex ⟨e, hm, he⟩
      case inr hm => exact hex (h.known e hm uid he)
    have hscan : x.db.pointers.find? (fun e => x.uniqueIdOf e.2 = some uid) = none :=
      List.find?_eq_none.mpr fun e hm he => hno e hm (of_decide_eq_true he)
    rw [hscan, Option.map_none, Option.bind_eq_bind, Option.bind_eq_none_iff]
    intro dfsIdx _
    refine Option.bind_eq_none_iff.mpr fun e he => ?_
    exact if_neg (hno e (List.mem_of_getElem? he))

theorem matchDu_eq (h : x.Loaded entries old later) (name : String) : x.matchDu name = x.findDu name := by
  rw [matchDu]
  cases hp : x.matchDuByName name
  case none   => rfl
  case some p =>
    have hfound := Option.join_eq_some_iff.mp hp
    have ⟨e, hm, he, hname⟩ := h.lookup _ _ (mem_of_searchWithin hfound)
    cases he
    have hfind := find?_of_nodup_filterMap h.dus hm hname
    have hsame : (fun (e : NcdbScopePath × NcdbChain) => isDuNamed name e.2)
        = fun e => decide (duNameOf e.2 = some name) :=
      funext fun e => (Bool.eq_iff_iff.mpr (isDuNamed_iff.trans decide_eq_true_iff.symm))
    rw [findDu, h.pointers, List.find?_append]
    change _ = Option.map _ ((old.find? fun e => isDuNamed name e.2).or _)
    rw [hsame, hfind]
    rfl

theorem createScope (h : x.Loaded entries old later) {parent : Option NcdbScopePath}
    {d : NcdbScopeData} {chain : NcdbChain} (hl : x.db.ComesLast parent)
    (hc : x.db.newChain parent d = some chain)
    (hu : ∀ uid, x.uniqueIdOf chain = some uid → ∃ e ∈ x.db.pointers, x.uniqueIdOf e.2 = some uid) :
    ∃ q, (x.createScope parent d).Loaded entries old (later ++ [(q, chain)]) := by
  have ⟨q, hq⟩ := Ncdb.pointers_createScope hl hc
  refine ⟨q, h.nuidIdx, ?_, h.indexed, h.uids, fun e hm uid he => ?_, h.dus, h.lookup⟩
  · rw [UcisDb.createScope, hq, h.pointers, List.append_assoc]
  · cases List.mem_append.mp hm
    case inl hm => exact h.known e hm uid he
    case inr hm =>
      cases List.mem_singleton.mp hm
      have ⟨o, ho, hou⟩ := hu uid he
      rw [h.pointers] at ho
      cases List.mem_append.mp ho
      case inl ho => exact ⟨o, ho, hou⟩
      case inr ho => exact h.known o ho uid hou

end Loaded

variable {x y : UcisDb}

theorem uniqueIdOf_congr {chain chain' : NcdbChain}
    (h : chain'.map NcdbScopeData.named = chain.map NcdbScopeData.named) :
    x.uniqueIdOf chain' = x.uniqueIdOf chain :=
  computeUniqueId_congr _ h

-- Values that depend on the types and names on the way to a scope are the same for scopes with the
-- same pointers.
theorem filterMap_namedPointer {β : Type} {f : NcdbChain → Option β}
    (hf : ∀ chain chain', chain'.map NcdbScopeData.named = chain.map NcdbScopeData.named →
      f chain' = f chain) {ps ps' : List (NcdbScopePath × NcdbChain)}
    (h : ps'.map namedPointer = ps.map namedPointer) :
    ps'.filterMap (fun e => f e.2) = ps.filterMap fun e => f e.2 := by
  induction ps generalizing ps'
  case nil => rw [List.map_eq_nil_iff.mp h]
  case cons e ps hi =>
    cases ps'
    case nil => cases h
    case cons e' ps' =>
      have ⟨he, hps⟩ := List.cons.inj h
      rw [List.filterMap_cons, List.filterMap_cons, hf e.2 e'.2 (Prod.mk.inj he).2, hi hps]

-- The unique ids of a database that can be written are those of all its scopes.
theorem uniqueIds_eq {data : List UInt8} (h : x.db.uniqueIdIndexSerialize x.pathSeparator = some data) :
    (∀ chain ∈ x.db.chains, chain.Fits (uidSeparator x.pathSeparator)) ∧
    x.db.pointers.filterMap (fun e => x.uniqueIdOf e.2) = x.db.uniqueIds x.pathSeparator := by
  have hfits : ∀ chain ∈ x.db.chains, chain.Fits (uidSeparator x.pathSeparator) := by
    rw [Ncdb.uniqueIdIndexSerialize] at h
    split at h
    case isTrue hn => simp [hn]
    case isFalse =>
      obtain ⟨uids, hm, _⟩ := Option.bind_eq_some_iff.mp h
      intro chain hc
      obtain ⟨uid, hu⟩ := mapM_some_of_mem hm hc
      exact (computeUniqueId_eq_some_iff.mp hu).2
  refine ⟨hfits, ?_⟩
  have hsnd : (fun e : NcdbScopePath × NcdbChain => x.uniqueIdOf e.2) = x.uniqueIdOf ∘ Prod.snd := rfl
  rw [hsnd, ← List.filterMap_map, Ncdb.snd_pointers, Ncdb.uniqueIds, ← List.filterMap_eq_map]
  refine List.filterMap_congr fun chain hm => ?_
  exact computeUniqueId_eq_some_iff.mpr ⟨rfl, hfits chain hm⟩

theorem Sound.reopen (ha : x.Allowed .reopen) (h : x.reopen = some y) : y.Sound := by
  obtain ⟨hnodup, hdus, hinj, hclear⟩ := ha
  obtain ⟨out, ho, h⟩ := Option.bind_eq_some_iff.mp h
  obtain ⟨nuid, hn, h⟩ := Option.bind_eq_some_iff.mp h
  obtain ⟨roots, hr, h⟩ := Option.bind_eq_some_iff.mp h
  have hroots := (scopeTreeDeserialize_scopeTreeSerialize ho).1 (hclear out ho)
  cases hr.symm.trans hroots
  cases h
  obtain ⟨db, hdb⟩ : ∃ db : Ncdb, db = { x.db with roots := NcdbScope.restoredAll x.db.roots, sources := out.sources } :=
    ⟨_, rfl⟩
  rw [← hdb]
  have hnamed : db.pointers.map namedPointer = x.db.pointers.map namedPointer :=
    Ncdb.namedPointer_restored (by rw [hdb])
  have hsize := Ncdb.length_dfsFlatten_lt ho
  obtain ⟨hfits, huids⟩ := uniqueIds_eq hn
  have hlookup : ∀ name p, (name, p) ∈ db.readDuLookup out.toNcdbTables out.data →
      ∃ e ∈ db.pointers, p = some e.1 ∧ duNameOf e.2 = some name := by
    intro name p hm
    obtain ⟨e, he, hp, hname⟩ := Ncdb.mem_readDuLookup ho (hclear out ho) hnamed hm
    exact ⟨e, he, hp, isDuNamed_iff.mp hname⟩
  have hlen : db.pointers.length = x.db.pointers.length := by
    rw [← List.length_map namedPointer, hnamed, List.length_map]
  split
  case isTrue hnil =>
    refine .inl ⟨rfl, List.eq_nil_iff_forall_not_mem.mpr fun named hm => ?_⟩
    obtain ⟨e, he, _⟩ := hlookup named.1 named.2 hm
    have hempty : x.db.chains = [] := by
      by_contra hne
      rw [hnil, Ncdb.uniqueIdIndexSerialize_of_fits hfits hne] at hn
      cases hn
    have hzero : db.pointers.length = 0 := by
      rw [hlen, Ncdb.length_pointers, ← Ncdb.length_chains, hempty, List.length_nil]
    rw [List.eq_nil_of_length_eq_zero hzero] at he
    cases he
  case isFalse hne =>
    have hchains : x.db.chains ≠ [] := by
      intro hempty
      rw [Ncdb.uniqueIdIndexSerialize, if_pos hempty] at hn
      cases hn
      exact hne rfl
    obtain ⟨data, hd, hindexed⟩ := Ncdb.uniquelyIndexed_of_fits hsize hinj hfits hnodup
    cases hn.symm.trans hd
    obtain ⟨chain, hchain⟩ := List.exists_mem_of_ne_nil _ hchains
    obtain ⟨i, hi⟩ := List.mem_iff_getElem?.mp hchain
    obtain ⟨_, entries, _, hentries, _⟩ := hindexed i chain hi
    refine .inr ⟨entries, db.pointers, [], ⟨hentries, (List.append_nil _).symm, ?_, ?_, by simp, ?_, hlookup⟩⟩
    · intro i e uid he hu
      have hsame := congrArg (fun l => l[i]?) hnamed
      simp only [List.getElem?_map, he, Option.map_some] at hsame
      obtain ⟨e', he', hnp⟩ := Option.map_eq_some_iff.mp hsame.symm
      have hc : x.db.chains[i]? = some e'.2 := by
        rw [← Ncdb.snd_pointers, List.getElem?_map, he']
        rfl
      obtain ⟨uid', entries', hu', hentries', hl⟩ := hindexed i e'.2 hc
      cases hentries.symm.trans hentries'
      have heq := @uniqueIdOf_congr x _ _ (Prod.mk.inj hnp).2
      cases (heq.symm.trans hu').symm.trans hu
      exact hl
    · have hcongr := filterMap_namedPointer (fun c c' hc => @uniqueIdOf_congr x c c' hc) hnamed
      exact (hcongr.trans huids) ▸ hnodup
    · have hcongr := filterMap_namedPointer (fun c c' hc => @duNameOf_congr c c' hc) hnamed
      rw [hcongr, ← Ncdb.duNames_eq]
      exact hdus

theorem Sound.step (h : x.Sound) {op : LookupOp} (ha : x.Allowed op) : (x.step op).Sound := by
  cases op
  case createScope parent d =>
    cases h
    case inl h => exact .inl h
    case inr h =>
      have ⟨entries, old, later, h⟩ := h
      have ⟨hl, chain, hc, hu⟩ := ha (by rw [h.nuidIdx]; exact Option.some_ne_none _)
      have ⟨q, h⟩ := h.createScope hl hc hu
      exact .inr ⟨entries, old, _, h⟩
  case reopen =>
    rw [UcisDb.step]
    cases hr : x.reopen
    case none   => exact h
    case some y => exact .reopen ha hr

theorem Sound.agrees (h : x.Sound) : (∀ uid, x.matchScopeByUniqueId uid = x.findUniqueId uid) ∧
    ∀ name, x.matchDu name = x.findDu name := by
  cases h
  case inl h =>
    have ⟨hi, hl⟩ := h
    refine ⟨fun uid => by rw [matchScopeByUniqueId, hi], fun name => ?_⟩
    rw [matchDu, matchDuByName, hl]
    rfl
  case inr h =>
    have ⟨_, _, _, h⟩ := h
    exact ⟨h.matchScopeByUniqueId_eq, h.matchDu_eq⟩

-- In every run that the condition allows, from any database in memory, both lookups give what the
-- scan of the tree gives, for every string.
theorem lookups_agree {db : Ncdb} {pathSeparator : Option String}
    (h : AllowedRun ⟨db, pathSeparator, none, []⟩ x) :
    (∀ uid, x.matchScopeByUniqueId uid = x.findUniqueId uid) ∧
    ∀ name, x.matchDu name = x.findDu name := by
  have hsound : x.Sound := by
    induction h
    case refl          => exact .inl ⟨rfl, rfl⟩
    case step _ ha hi  => exact hi.step ha
  exact hsound.agrees

def run (db : Ncdb) (ops : List LookupOp) : UcisDb :=
  ops.foldl step ⟨db, some "/", none, []⟩

-- A design unit.
def oneDu : Ncdb where
  roots := [.mk { type := 0x1000000, name := "lib.m" } [] []]

def instanceRead : List LookupOp := [
  .createScope none { type := 0x10, name := "top" },
  .reopen
]

theorem lookups_agree_instanceRead :
    (∀ uid, (run oneDu instanceRead).matchScopeByUniqueId uid = (run oneDu instanceRead).findUniqueId uid) ∧
    ∀ name, (run oneDu instanceRead).matchDu name = (run oneDu instanceRead).findDu name := by
  have h₁ : AllowedRun ⟨oneDu, some "/", none, []⟩ (run oneDu (instanceRead.take 1)) :=
    .step (.createScope none { type := 0x10, name := "top" }) (.refl _) (fun h => absurd rfl h)
  have h₂ : AllowedRun ⟨oneDu, some "/", none, []⟩ (run oneDu instanceRead) :=
    .step .reopen h₁ ⟨by decide +kernel, by decide +kernel, by rw [HashInjective]; decide +kernel,
      fun _ _ hd => absurd hd (by decide +kernel)⟩
  exact lookups_agree h₂

-- A scope that is created after the file was read.
def lateScope : List LookupOp := [
  .reopen,
  .createScope none { type := 0x10, name := "late" }
]

-- The index does not have it, and the tree is not scanned.
theorem lateScope_not_found : ¬∀ ops, HashInjective ((run oneDu ops).db.uniqueIds "/") → ∀ uid,
    (run oneDu ops).matchScopeByUniqueId uid = (run oneDu ops).findUniqueId uid := by
  intro h
  have hinj : HashInjective ((run oneDu lateScope).db.uniqueIds "/") := by
    rw [HashInjective]
    decide +kernel
  have hmatch : (run oneDu lateScope).matchScopeByUniqueId (utf8Bytes "/4:late") = none := by
    decide +kernel
  have hscan : (run oneDu lateScope).findUniqueId (utf8Bytes "/4:late") = some ⟨1, []⟩ := by
    decide +kernel
  have heq := h lateScope hinj (utf8Bytes "/4:late")
  rw [hmatch, hscan] at heq
  cases heq

end UcisDb
