import Covsight.NcdbC.Theorems.Trailer
import Covsight.NcdbC.UniqueId

-- When the index of unique ids can be written and finds every scope.

namespace NcdbScope

mutual

-- Each chain ends in its scope.
theorem getLast?_chains (above : NcdbChain) : (s : NcdbScope) →
    (s.chains above).map List.getLast? = s.dfs.map fun t => some t.data
  | mk d cs ss => by
    rw [chains, dfs, List.map_cons, List.map_cons, List.getLast?_concat, getLast?_chainsAll]
    rfl

theorem getLast?_chainsAll (above : NcdbChain) : (ss : List NcdbScope) →
    (chainsAll above ss).map List.getLast? = (dfsAll ss).map fun t => some t.data
  | []      => rfl
  | s :: ss => by
    rw [chainsAll, dfsAll, List.map_append, List.map_append, getLast?_chains, getLast?_chainsAll]

end

end NcdbScope

-- The numbers of the chains are those of the scopes.
theorem Ncdb.getLast?_chains (db : Ncdb) :
    db.chains.map List.getLast? = db.dfsFlatten.map fun s => some s.data :=
  NcdbScope.getLast?_chainsAll [] db.roots

theorem Ncdb.length_chains (db : Ncdb) : db.chains.length = db.dfsFlatten.length := by
  have hl := congrArg List.length db.getLast?_chains
  rwa [List.length_map, List.length_map] at hl

-- The unique id, however long it is.
def uniqueId (sep : UInt8) (chain : NcdbChain) : List UInt8 :=
  chain.flatMap (uidComponent sep)

def NcdbChain.Fits (sep : UInt8) (chain : NcdbChain) : Prop :=
  chain.length ≤ uidChainCap ∧ (uniqueId sep chain).length < uidBufferSize

theorem appendComponents_eq {sep : UInt8} {bufsz : Nat} {buf : List UInt8} (h : buf.length < bufsz)
    (chain : NcdbChain) : appendComponents sep bufsz buf chain =
      if (buf ++ uniqueId sep chain).length < bufsz then some (buf ++ uniqueId sep chain) else none := by
  induction chain generalizing buf
  case nil =>
    rw [appendComponents, uniqueId, List.flatMap_nil, List.append_nil, if_pos h]
  case cons d ds hi =>
    rw [appendComponents, uniqueId, List.flatMap_cons, ← List.append_assoc]
    split
    case isTrue hd => exact hi (by rw [List.length_append]; omega)
    case isFalse hd =>
      refine (if_neg fun hl => hd ?_).symm
      rw [List.length_append, List.length_append] at hl
      omega

theorem computeUniqueId_eq_some_iff {sep : UInt8} {chain : NcdbChain} {uid : List UInt8} :
    computeUniqueId sep chain uidBufferSize = some uid ↔
      uid = uniqueId sep chain ∧ chain.Fits sep := by
  have hempty : ([] : List UInt8).length < uidBufferSize := by decide
  rw [computeUniqueId, appendComponents_eq hempty, List.nil_append, NcdbChain.Fits]
  grind

theorem mapM_eq_some_map {α β : Type*} {f : α → Option β} {g : α → β} {xs : List α}
    (h : ∀ x ∈ xs, f x = some (g x)) : xs.mapM f = some (xs.map g) := by
  induction xs
  case nil => rfl
  case cons x xs hi =>
    have ⟨hx, hxs⟩ := List.forall_mem_cons.mp h
    rw [List.mapM_cons, hx, hi hxs]
    rfl

theorem mapM_some_of_mem {α β : Type*} {f : α → Option β} {xs : List α} {ys : List β}
    (h : xs.mapM f = some ys) {x : α} (hx : x ∈ xs) : ∃ y, f x = some y := by
  induction xs generalizing ys
  case nil => cases hx
  case cons x' xs hi =>
    rw [List.mapM_cons] at h
    have ⟨y, hy, h⟩ := Option.bind_eq_some_iff.mp h
    have ⟨ys, hys, _⟩ := Option.bind_eq_some_iff.mp h
    cases hx
    case head    => exact ⟨y, hy⟩
    case tail hx => exact hi hys hx

section Entries

variable {uids : List (List UInt8)} {entries : List NuidEntry} {i : Nat} {uid : List UInt8}

-- Different unique ids have different hashes.
def HashInjective (uids : List (List UInt8)) : Prop :=
  ∀ a ∈ uids, ∀ b ∈ uids, ncdbXxh64 a 0 = ncdbXxh64 b 0 → a = b

theorem mem_nuidEntries {e : NuidEntry} : e ∈ nuidEntries uids ↔
    ∃ i uid, uids[i]? = some uid ∧ e = ⟨ncdbXxh64 uid 0, UInt64.ofNat i⟩ := by
  rw [nuidEntries, (List.mergeSort_perm ..).mem_iff, List.mem_map]
  constructor
  · intro ⟨⟨uid, i⟩, hm, he⟩
    exact ⟨i, uid, List.mk_mem_zipIdx_iff_getElem?.mp hm, he.symm⟩
  · intro ⟨i, uid, hi, he⟩
    exact ⟨(uid, i), List.mk_mem_zipIdx_iff_getElem?.mpr hi, he.symm⟩

theorem length_nuidEntries (uids : List (List UInt8)) : (nuidEntries uids).length = uids.length := by
  rw [nuidEntries, List.length_mergeSort, List.length_map, List.length_zipIdx]

-- Without equal hashes the entries are in strict order.
theorem pairwise_nuidEntries (h : HashInjective uids) (hn : uids.Nodup) :
    (nuidEntries uids).Pairwise fun a b => a.hash < b.hash := by
  have hle : (nuidEntries uids).Pairwise fun a b => a.hash ≤ b.hash := by
    have htrans : ∀ a b c : NuidEntry, decide (a.hash ≤ b.hash) → decide (b.hash ≤ c.hash) →
        decide (a.hash ≤ c.hash) :=
      fun a b c hab hbc => decide_eq_true
        (UInt64.le_trans (of_decide_eq_true hab) (of_decide_eq_true hbc))
    have htotal : ∀ a b : NuidEntry, decide (a.hash ≤ b.hash) || decide (b.hash ≤ a.hash) :=
      fun a b => by simpa using UInt64.le_total a.hash b.hash
    exact (List.pairwise_mergeSort htrans htotal _).imp of_decide_eq_true
  have hne : (nuidEntries uids).Pairwise fun a b => a.hash ≠ b.hash := by
    refine List.pairwise_map.mp (?_ : ((nuidEntries uids).map (·.hash)).Nodup)
    have hp : ((nuidEntries uids).map (·.hash)).Perm (uids.map fun uid => ncdbXxh64 uid 0) := by
      refine ((List.mergeSort_perm ..).map _).trans (.of_eq ?_)
      rw [List.map_map]
      exact List.ext_getElem (by simp) (by simp)
    exact hp.nodup_iff.mpr (hn.map_on fun a ha b hb => h a ha b hb)
  exact (hle.and hne).imp fun ⟨hle, hne⟩ => UInt64.lt_of_le_of_ne hle hne

theorem uniqueIdIndexLookup_eq (hs : entries.Pairwise fun a b => a.hash < b.hash) {e : NuidEntry}
    (hm : e ∈ entries) : uniqueIdIndexLookup entries e.hash = some e.dfsIdx := by
  refine search_of_mem (List.pairwise_map.mpr (hs.imp ?_)) (List.mem_map_of_mem hm)
  exact UInt64.lt_iff_toNat_lt.mp

end Entries

namespace NuidEntry

theorem decode_encode (e : NuidEntry) (rest : List UInt8) :
    decode (e.encode ++ rest) = some (e, rest) := by
  have hlen : (encodeLe 8 e.hash.toNat).length = 8 := length_encodeLe ..
  have hle : decodeLe (encodeLe 8 e.hash.toNat) = e.hash.toNat :=
    decodeLe_encodeLe (Nat.lt_of_lt_of_le e.hash.toNat_lt (by decide))
  have hread : xxhRead 8 (encodeLe 8 e.hash.toNat ++ (encodeUInt64 e.dfsIdx ++ rest)) = e.hash := by
    rw [xxhRead, List.take_left' hlen, hle, UInt64.ofNat_toNat]
  rw [decode, encode, List.append_assoc, if_pos (by simp [hlen]), hread, List.drop_left' hlen]
  simp [decodeUInt64_encodeUInt64]

end NuidEntry

theorem uniqueIdIndexDeserialize_encode {entries : List NuidEntry} (h : entries.length < sizeLimit) :
    uniqueIdIndexDeserialize (nuidMagic ++ [1, 0] ++
      (encodeVarint entries.length ++ entries.flatMap NuidEntry.encode)) = some entries := by
  have hmany := decodeMany_encodeVarint (fun e _ => NuidEntry.decode_encode e) h []
  rw [List.append_nil] at hmany
  have ⟨⟨n, bytes⟩, hn, hmany⟩ := Option.bind_eq_some_iff.mp hmany
  have hsix : (nuidMagic ++ [1, 0] ++ (encodeVarint entries.length ++
      entries.flatMap NuidEntry.encode)).drop 6 = encodeVarint entries.length ++
        entries.flatMap NuidEntry.encode := rfl
  have hlen : (encodeVarint entries.length).length ≠ 0 :=
    fun h => varintBytes_ne_nil _ _ (List.eq_nil_of_length_eq_zero h)
  rw [uniqueIdIndexDeserialize, if_pos ⟨by simp [nuidMagic]; omega, rfl, rfl⟩, hsix, hn]
  simp only [Option.bind_eq_bind, Option.bind_some, hmany, Option.pure_def]

namespace Ncdb

variable {db : Ncdb} {pathSeparator : Option String}

-- The index can be written, and looking up the hash of the unique id of a scope gives its position.
def UniquelyIndexed (db : Ncdb) (pathSeparator : Option String) : Prop :=
  ∃ data, db.uniqueIdIndexSerialize pathSeparator = some data ∧
    ∀ dfsIdx chain, db.chains[dfsIdx]? = some chain →
      ∃ uid entries, computeUniqueId (uidSeparator pathSeparator) chain uidBufferSize = some uid ∧
        uniqueIdIndexDeserialize data = some entries ∧
        (uniqueIdIndexLookup entries (ncdbXxh64 uid 0)).map (·.toNat) = some dfsIdx

-- The unique ids of the scopes, however long they are.
def uniqueIds (db : Ncdb) (pathSeparator : Option String) : List (List UInt8) :=
  db.chains.map (uniqueId (uidSeparator pathSeparator))

theorem uniqueIdIndexSerialize_of_fits
    (h : ∀ chain ∈ db.chains, chain.Fits (uidSeparator pathSeparator)) (hn : db.chains ≠ []) :
    db.uniqueIdIndexSerialize pathSeparator = some (nuidMagic ++ [1, 0] ++
      (encodeVarint (nuidEntries (db.uniqueIds pathSeparator)).length ++
        (nuidEntries (db.uniqueIds pathSeparator)).flatMap NuidEntry.encode)) := by
  have hm : (db.chains.mapM fun chain =>
      computeUniqueId (uidSeparator pathSeparator) chain uidBufferSize)
        = some (db.uniqueIds pathSeparator) :=
    mapM_eq_some_map fun chain hc => computeUniqueId_eq_some_iff.mpr ⟨rfl, h chain hc⟩
  rw [uniqueIdIndexSerialize, if_neg hn, hm, length_nuidEntries]
  rfl

theorem uniquelyIndexed_of_fits (hsize : db.dfsFlatten.length < sizeLimit)
    (hh : HashInjective (db.uniqueIds pathSeparator))
    (h : ∀ chain ∈ db.chains, chain.Fits (uidSeparator pathSeparator))
    (hnodup : (db.uniqueIds pathSeparator).Nodup) : db.UniquelyIndexed pathSeparator := by
  by_cases hn : db.chains = []
  case pos => exact ⟨[], by rw [uniqueIdIndexSerialize, if_pos hn], by simp [hn]⟩
  case neg =>
    refine ⟨_, uniqueIdIndexSerialize_of_fits h hn, fun dfsIdx chain hc => ?_⟩
    have hl : (nuidEntries (db.uniqueIds pathSeparator)).length < sizeLimit := by
      rwa [length_nuidEntries, uniqueIds, List.length_map, length_chains]
    have hlt : dfsIdx < sizeLimit := by
      have := (List.getElem?_eq_some_iff.mp hc).1
      rw [length_chains] at this
      omega
    refine ⟨_, _, computeUniqueId_eq_some_iff.mpr ⟨rfl, h chain (List.mem_of_getElem? hc)⟩,
      uniqueIdIndexDeserialize_encode hl, ?_⟩
    have hm : ⟨ncdbXxh64 (uniqueId (uidSeparator pathSeparator) chain) 0, UInt64.ofNat dfsIdx⟩
        ∈ nuidEntries (db.uniqueIds pathSeparator) :=
      mem_nuidEntries.mpr ⟨dfsIdx, _, by rw [uniqueIds, List.getElem?_map, hc]; rfl, rfl⟩
    rw [uniqueIdIndexLookup_eq (pairwise_nuidEntries hh hnodup) hm, Option.map_some,
      toNat_ofNat_of_lt hlt]

theorem UniquelyIndexed.fits (h : db.UniquelyIndexed pathSeparator) {chain : NcdbChain}
    (hm : chain ∈ db.chains) : chain.Fits (uidSeparator pathSeparator) := by
  have ⟨_, _, hlookup⟩ := h
  have ⟨i, hi⟩ := List.mem_iff_getElem?.mp hm
  have ⟨_, _, hu, _⟩ := hlookup i chain hi
  exact (computeUniqueId_eq_some_iff.mp hu).2

-- One unique id cannot be looked up with two results.
theorem UniquelyIndexed.nodup (h : db.UniquelyIndexed pathSeparator) :
    (db.uniqueIds pathSeparator).Nodup := by
  have ⟨data, _, hlookup⟩ := h
  refine List.nodup_iff_getElem?_ne_getElem?.mpr fun i j hij hj heq => ?_
  rw [uniqueIds, List.length_map] at hj
  have hi := Nat.lt_trans hij hj
  have ⟨_, _, hui, hdi, hli⟩ := hlookup i _ (List.getElem?_eq_getElem hi)
  have ⟨_, _, huj, hdj, hlj⟩ := hlookup j _ (List.getElem?_eq_getElem hj)
  cases (computeUniqueId_eq_some_iff.mp hui).1
  cases (computeUniqueId_eq_some_iff.mp huj).1
  cases hdi.symm.trans hdj
  simp only [uniqueIds, List.getElem?_map, List.getElem?_eq_getElem hi,
    List.getElem?_eq_getElem hj, Option.map_some, Option.some.injEq] at heq
  rw [heq, hlj, Option.some.injEq] at hli
  omega

-- Without hash collisions, every scope is found if and only if none is nested too deep or has a unique
-- id that is too long, and no two scopes have the same unique id. A database is in memory, so that it
-- has fewer scopes than there are addresses.
theorem uniquelyIndexed_iff (hsize : db.dfsFlatten.length < sizeLimit)
    (hh : HashInjective (db.uniqueIds pathSeparator)) : db.UniquelyIndexed pathSeparator ↔
      (∀ chain ∈ db.chains, chain.length ≤ uidChainCap ∧
        (uniqueId (uidSeparator pathSeparator) chain).length < uidBufferSize) ∧
      (db.uniqueIds pathSeparator).Nodup :=
  ⟨fun h => ⟨fun _ hm => h.fits hm, h.nodup⟩, fun ⟨h, hn⟩ => uniquelyIndexed_of_fits hsize hh h hn⟩

def oneScope (name : String) : Ncdb where
  roots := [.mk { type := 0x10, name := name } [] []]

theorem hashInjective_oneScope (name : String) : HashInjective ((oneScope name).uniqueIds none) :=
  fun _ ha _ hb _ => (List.mem_singleton.mp ha).trans (List.mem_singleton.mp hb).symm

theorem uniquelyIndexed_iff_oneScope : (oneScope "top").UniquelyIndexed none ↔
    (∀ chain ∈ (oneScope "top").chains, chain.length ≤ uidChainCap ∧
      (uniqueId (uidSeparator none) chain).length < uidBufferSize) ∧
    ((oneScope "top").uniqueIds none).Nodup :=
  uniquelyIndexed_iff (by decide) (hashInjective_oneScope "top")

-- A separator, a digit and a colon go before the name.
theorem length_of_uniquelyIndexed {name : String} (h : (oneScope name).UniquelyIndexed none) :
    (utf8Bytes name).length < 1021 := by
  have hl := (h.fits (.head _)).2
  have hdigit : utf8Bytes (toString (typeLog2 0x10)) = [0x34] := by decide +kernel
  simp only [List.nil_append, uniqueId, List.flatMap_cons, List.flatMap_nil, List.append_nil,
    uidComponent, hdigit, List.length_cons, List.length_append, List.length_nil] at hl
  rw [uidBufferSize] at hl
  omega

-- A unique id of 1024 bytes leaves no byte of the buffer.
theorem oneScope_not_uniquelyIndexed :
    ¬∀ db : Ncdb, HashInjective (db.uniqueIds none) → db.UniquelyIndexed none := by
  intro h
  obtain ⟨name, hname⟩ : ∃ name, name = String.ofList (List.replicate 1021 'n') := ⟨_, rfl⟩
  have hl := length_of_uniquelyIndexed (h (oneScope name) (hashInjective_oneScope name))
  rw [hname, utf8Bytes, String.toList_ofList, List.length_flatMap, List.map_replicate,
    List.sum_replicate_nat] at hl
  exact absurd hl (by decide)

end Ncdb
