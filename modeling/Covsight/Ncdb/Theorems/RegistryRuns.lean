import Covsight.Lib.Call
import Covsight.Ncdb.TestRegistry
import Covsight.Ncdb.StringTable

-- Ids of names and seeds over lookups and reloads.

open StringTable

namespace StringIds

variable {ids ids' : StringIds} {s t : String}

-- Strings that are stored one after the other.
structure Stored (ids : StringIds) : Prop where
  nodup    : ids.strings.Nodup
  zeroFree : ∀ s ∈ ids.strings, 0 ∉ utf8 s
  count    : ids.strings.length < 2 ^ 32
  offsets  : ∀ offset ∈ Heap.offsets (ids.strings.map utf8), offset < 2 ^ 32

theorem stored_empty : Stored {} :=
  ⟨.nil, nofun, by decide, nofun⟩

-- There is room for a string that is not there, and it has no zero byte.
def Takes (ids : StringIds) (s : String) : Prop :=
  s ∈ ids.strings ∨
    0 ∉ utf8 s ∧ ids.strings.length + 1 < 2 ^ 32 ∧ Heap.size (ids.strings.map utf8) < 2 ^ 32

theorem strings_lookupId (ids : StringIds) (s : String) :
    (ids.lookupId s).snd.strings = if s ∈ ids.strings then ids.strings else ids.strings ++ [s] := by
  rw [lookupId]
  split
  case h_1 i h =>
    have hs : s ∈ ids.strings := Decidable.not_not.mp fun hs => by rw [idOf_eq_none_iff.mpr hs] at h; cases h
    rw [if_pos hs]
  case h_2 h   => rw [if_neg (idOf_eq_none_iff.mp h)]

theorem extends_lookupId (ids : StringIds) (s : String) : ids.strings <+: (ids.lookupId s).snd.strings := by
  rw [strings_lookupId]
  split
  case isTrue  => exact List.prefix_rfl
  case isFalse => exact List.prefix_append ..

theorem Stored.lookupId (h : ids.Stored) (ht : ids.Takes s) : (ids.lookupId s).snd.Stored := by
  have ⟨hn, _, _, hm⟩ := lookupId_spec h.nodup s
  have hstrings := strings_lookupId ids s
  by_cases hs : s ∈ ids.strings
  case pos =>
    rw [if_pos hs] at hstrings
    exact ⟨hn, hstrings ▸ h.zeroFree, hstrings ▸ h.count, hstrings ▸ h.offsets⟩
  case neg =>
    have ⟨hz, hc, ho⟩ := ht.resolve_left hs
    rw [if_neg hs] at hstrings
    refine ⟨hn, fun x hx => ?_, ?_, ?_⟩
    case refine_1 => exact (hm x hx).elim (h.zeroFree x) fun he => he ▸ hz
    case refine_2 => simpa [hstrings] using hc
    case refine_3 =>
      rw [hstrings, List.map_append, List.map_singleton, Heap.offsets_concat]
      exact List.forall_mem_append.mpr ⟨h.offsets, List.forall_mem_singleton.mpr ho⟩

-- What has a number keeps it while strings are added at the end.
theorem lookupId_of_prefix (hn : ids'.strings.Nodup) (hp : (ids.lookupId s).snd.strings <+: ids'.strings)
    (hi : ids.strings.Nodup) :
    (ids'.lookupId s).fst = (ids.lookupId s).fst ∧ ids'.strings[(ids.lookupId s).fst]? = some s := by
  have ⟨_, hs, _, _⟩ := lookupId_spec hi s
  have hl := (List.getElem?_eq_some_iff.mp hs).fst
  have hs' : ids'.strings[(ids.lookupId s).fst]? = some s :=
    (List.prefix_iff_getElem?.mp hp _ hl).trans ((List.getElem?_eq_getElem hl).symm.trans hs)
  refine ⟨?_, hs'⟩
  rw [StringIds.lookupId, (idOf_eq_some_iff hn).mpr hs']

-- A number that one string has is given to no other one.
theorem lookupId_ne (hn : ids.strings.Nodup) {i : Nat} (hs : ids.strings[i]? = some s) (ht : t ≠ s) :
    (ids.lookupId t).fst ≠ i := by
  intro he
  have ⟨_, hi, hk, _⟩ := lookupId_spec hn t
  rw [he, hk i s hs] at hi
  exact ht (Option.some.inj hi).symm

end StringIds

namespace TestRegistry

variable {r r' : TestRegistry} {strings : List String}

-- A registry that comes back from its bytes.
structure Stored (r : TestRegistry) : Prop where
  names     : r.names.Stored
  seeds     : r.seeds.Stored
  nextRunId : r.nextRunId < 2 ^ 32

theorem mapM_readString (h : ∀ s ∈ strings, 0 ∉ utf8 s) (before after : List UInt8) :
    (Heap.offsets (strings.map utf8)).mapM (fun offset =>
      readString (before ++ (stringHeap strings ++ after)) (before.length + offset)) = some strings := by
  have hr := Heap.mapM_readAt_base (List.forall_mem_map.mpr h) before after
  have hd : (strings.map utf8).mapM HistoryReader.utf8Decode = some strings :=
    mapM_eq_some_iff.mpr (List.forall₂_map_left_iff.mpr (List.forall₂_same.mpr fun s _ => utf8Decode_utf8 s))
  have hb := mapM_bind (fun offset => Heap.readAt 0 (before ++ (stringHeap strings ++ after)) (before.length + offset))
    HistoryReader.utf8Decode (Heap.offsets (strings.map utf8))
  rw [stringHeap, hr, Option.bind_some, hd] at hb
  exact hb

theorem deserializeBytes_serializeBytes (h : r.Stored) : ∃ bytes,
    r.serializeBytes = some bytes ∧ deserializeBytes bytes = some r := by
  have hn : packOffsets r.names.strings = some _ := pack_map h.names.offsets
  have hs : packOffsets r.seeds.strings = some _ := pack_map h.seeds.offsets
  have hhead : Packable [(4, (magic : Int)), (1, (version : Int)), (4, (r.nextRunId : Int)),
      (4, (r.names.strings.length : Int)), (4, (r.seeds.strings.length : Int))] := by
    have hc := h.names.count
    have hc' := h.seeds.count
    have hr := h.nextRunId
    simp only [packable_cons, packable_nil, and_true, magic, version]
    omega
  have hp := pack_of_packable hhead
  simp only [packable_cons] at hhead
  obtain ⟨hm, hv, hr, hnn, hns, -⟩ := hhead
  refine ⟨_, (bind_of_eq_some hp _).trans <| (bind_of_eq_some hn _).trans <| bind_of_eq_some hs _, ?_⟩
  have hguard : ∀ n : Nat, (guard ((n : Int).toNat = n) : Option Unit) = some () :=
    fun n => if_pos (Int.toNat_natCast n)
  have hoffsets : ∀ {strings : List String} (_ : ∀ o ∈ Heap.offsets (strings.map utf8), o < 2 ^ 32) (rest : List UInt8),
      decodeMany (decodeFixed 4) strings.length ((Heap.offsets (strings.map utf8)).flatMap (encodeLe 4) ++ rest) =
        some (Heap.offsets (strings.map utf8), rest) := by
    intro strings ho rest
    have hl : (Heap.offsets (strings.map utf8)).length = strings.length :=
      (Heap.length_offsets _).trans (List.length_map ..)
    exact hl ▸ decodeMany_flatMap (fun o hm => decodeFixed_encodeLe (ho o hm)) rest
  have hnames := mapM_readString h.names.zeroFree [] (stringHeap r.seeds.strings)
  have hseeds := mapM_readString h.seeds.zeroFree (stringHeap r.names.strings) []
  simp only [List.nil_append, List.length_nil, Nat.zero_add] at hnames
  rw [List.append_nil, stringHeap, Heap.pack_length] at hseeds
  simp only [List.append_assoc]
  refine (bind_of_eq_some (decodeFixed_encodeFields hm _) _).trans ?_
  refine (bind_of_eq_some (decodeFixed_encodeFields hv _) _).trans ?_
  refine (bind_of_eq_some (decodeFixed_encodeFields hr _) _).trans ?_
  refine (bind_of_eq_some (decodeFixed_encodeFields hnn _) _).trans ?_
  refine (bind_of_eq_some (decodeFixed_encodeFields hns _) _).trans ?_
  refine (bind_of_eq_some (hguard magic) _).trans ?_
  refine (bind_of_eq_some (hguard version) _).trans ?_
  refine (bind_of_eq_some (hoffsets h.names.offsets _) _).trans ?_
  refine (bind_of_eq_some (hoffsets h.seeds.offsets _) _).trans ?_
  refine (bind_of_eq_some hnames _).trans ?_
  exact bind_of_eq_some hseeds _

end TestRegistry

-- What is done to a registry. It is stored and read again by a reload.
inductive RegistryStep
  | lookupName (name : String)
  | lookupSeed (seed : String)
  | assignRunId
  | reload

namespace RegistryStep

def apply : RegistryStep → TestRegistry → TestRegistry
  | lookupName name, r => (r.lookupNameId name).snd
  | lookupSeed seed, r => (r.lookupSeedId seed).snd
  | assignRunId,     r => r.assignRunId.snd
  | reload,          r => (r.serializeBytes.bind TestRegistry.deserializeBytes).getD r

def Takes (r : TestRegistry) : RegistryStep → Prop
  | lookupName name => r.names.Takes name
  | lookupSeed seed => r.seeds.Takes seed
  | assignRunId     => r.nextRunId + 1 < 2 ^ 32
  | reload          => True

end RegistryStep

namespace TestRegistry

-- What has an id keeps it.
structure Grown (r' r : TestRegistry) : Prop where
  names : r.names.strings <+: r'.names.strings
  seeds : r.seeds.strings <+: r'.seeds.strings

theorem Stored.reload (h : r.Stored) : RegistryStep.reload.apply r = r := by
  have ⟨bytes, hs, hd⟩ := deserializeBytes_serializeBytes h
  rw [RegistryStep.apply, hs, Option.bind_some, hd, Option.getD_some]

theorem stored_apply (h : r.Stored) (step : RegistryStep) (ht : step.Takes r) :
    (step.apply r).Stored ∧ (step.apply r).Grown r := by
  cases step
  case lookupName name =>
    exact ⟨⟨h.names.lookupId ht, h.seeds, h.nextRunId⟩, StringIds.extends_lookupId r.names name, List.prefix_rfl⟩
  case lookupSeed seed =>
    exact ⟨⟨h.names, h.seeds.lookupId ht, h.nextRunId⟩, List.prefix_rfl, StringIds.extends_lookupId r.seeds seed⟩
  case assignRunId     => exact ⟨⟨h.names, h.seeds, ht⟩, List.prefix_rfl, List.prefix_rfl⟩
  case reload          => exact h.reload.symm ▸ ⟨h, List.prefix_rfl, List.prefix_rfl⟩

theorem stored_of_reached (h : r.Stored) (hr : ReachedBy RegistryStep.apply RegistryStep.Takes r r') :
    r'.Stored ∧ r'.Grown r := by
  refine hr.invariant (p := fun r' => r'.Stored ∧ r'.Grown r) ⟨h, List.prefix_rfl, List.prefix_rfl⟩ ?_
  intro r' step ⟨hs, he⟩ ht
  have ⟨hs', he'⟩ := stored_apply hs step ht
  exact ⟨hs', he.names.trans he'.names, he.seeds.trans he'.seeds⟩

theorem stored_empty : Stored {} :=
  ⟨StringIds.stored_empty, StringIds.stored_empty, by decide⟩

-- An id that was given is the one of its string and of no other from then on, and a registry that is
-- stored comes back as it was.
theorem ids_stable (h : ReachedBy RegistryStep.apply RegistryStep.Takes {} r) :
    r.serializeBytes.bind deserializeBytes = some r ∧
    (∀ name, r.names.Takes name →
      ∀ r', ReachedBy RegistryStep.apply RegistryStep.Takes (r.lookupNameId name).snd r' →
        (r'.lookupNameId name).fst = (r.lookupNameId name).fst ∧
        r'.nameForId (r.lookupNameId name).fst = some name ∧
        ∀ other, other ≠ name → (r'.lookupNameId other).fst ≠ (r.lookupNameId name).fst) ∧
    ∀ seed, r.seeds.Takes seed →
      ∀ r', ReachedBy RegistryStep.apply RegistryStep.Takes (r.lookupSeedId seed).snd r' →
        (r'.lookupSeedId seed).fst = (r.lookupSeedId seed).fst ∧
        r'.seedForId (r.lookupSeedId seed).fst = some seed ∧
        ∀ other, other ≠ seed → (r'.lookupSeedId other).fst ≠ (r.lookupSeedId seed).fst := by
  have ⟨hs, _⟩ := stored_of_reached stored_empty h
  refine ⟨?_, fun name ht r' hr => ?_, fun seed ht r' hr => ?_⟩
  case refine_1 =>
    have ⟨bytes, hb, hd⟩ := deserializeBytes_serializeBytes hs
    rw [hb, Option.bind_some, hd]
  case refine_2 =>
    have ⟨hs', he⟩ := stored_of_reached (stored_apply hs (.lookupName name) ht).left hr
    have ⟨hid, hname⟩ := StringIds.lookupId_of_prefix hs'.names.nodup he.names hs.names.nodup
    exact ⟨hid, hname, fun other ho => StringIds.lookupId_ne hs'.names.nodup hname ho⟩
  case refine_3 =>
    have ⟨hs', he⟩ := stored_of_reached (stored_apply hs (.lookupSeed seed) ht).left hr
    have ⟨hid, hseed⟩ := StringIds.lookupId_of_prefix hs'.seeds.nodup he.seeds hs.seeds.nodup
    exact ⟨hid, hseed, fun other ho => StringIds.lookupId_ne hs'.seeds.nodup hseed ho⟩

-- A name is looked up again after the registry was stored.
theorem ids_stable_reloaded :
    let r := (lookupNameId {} "a").snd
    ((RegistryStep.reload.apply r).lookupNameId "a").fst = (lookupNameId {} "a").fst := by
  intro r
  have ht : StringIds.Takes {} "a" := .inr ⟨by decide +kernel, by decide +kernel, by decide +kernel⟩
  have hr : ∀ r, ReachedBy RegistryStep.apply RegistryStep.Takes r (RegistryStep.reload.apply r) :=
    fun r => ReachedBy.step (s := r) RegistryStep.reload .start trivial
  exact ((ids_stable .start).right.left "a" ht _ (hr r)).left

-- A name with a zero byte is another one once the registry was stored, and gets an id again.
theorem id_of_cut_name :
    let r := (lookupNameId {} "a\x00b").snd
    let r' := RegistryStep.reload.apply r
    (lookupNameId {} "a\x00b").fst = 0 ∧ r'.nameForId 0 = some "a" ∧ (r'.lookupNameId "a\x00b").fst = 1 := by
  decide +kernel

end TestRegistry
