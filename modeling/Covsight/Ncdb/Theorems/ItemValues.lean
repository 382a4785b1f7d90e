import Covsight.Ncdb.Theorems.ItemTables
import Covsight.Ncdb.Theorems.NcdbReader

-- The values of an item, put together from the record of its scope and the tables of items.

namespace NcdbReader

variable {a : Archive} {b : Bool} {n i j : Nat} {ci : CoverIndex}

theorem data_readTypes (types : Option CoveritemTypes) (ci : CoverIndex) :
    ((types.map fun runs => runs.readItem b n ci).getD ci).data
      = if b then ci.data else (types.getD []).retype n ci.data := by
  cases types
  case none      => exact (ite_self _).symm
  case some runs => cases b <;> rfl

theorem data_readFlags (flags : Option CoveritemFlags) (h : ci.data.flags = defaultFlags ci.data.type) :
    ((flags.map fun flags => flags.readItem n ci).getD ci).data = { ci.data with
      flags := ((flags.getD ∅).get? n).getD (defaultFlags ci.data.type) } := by
  cases flags
  case none => exact h ▸ rfl
  case some flags =>
    simp only [Option.map_some, Option.getD_some, CoveritemFlags.readItem]
    split
    case isTrue he => rw [Dict.isEmpty_iff.mp he n, Option.getD_none, ← h]
    case isFalse   => rfl

theorem data_readSource (sources : CoveritemSources) (files : List String) :
    (sources.readItem files b n ci).data = ci.data := by
  rw [CoveritemSources.readItem]
  split
  · rfl
  · split
    · rfl
    · split <;> rfl

-- The data of an item with the types and flags that are stored.
theorem data_readItem (h : ci.data.flags = defaultFlags ci.data.type) :
    (readItem a b n i j ci).data = (readData a n (b, ci.name, ci.data)).snd.snd := by
  have hattrs : ∀ ci : CoverIndex,
      ((a.attrs.map fun attrs => attrs.readItem i j ci).getD ci).data = ci.data := by
    intro ci
    cases a.attrs <;> rfl
  have hsources : ∀ ci : CoverIndex,
      ((a.itemSources.map fun sources => sources.readItem a.sources b n ci).getD ci).data = ci.data := by
    intro ci
    cases a.itemSources
    case none   => rfl
    case some m => exact data_readSource m a.sources
  have htypes := data_readTypes (b := b) (n := n) a.types ci
  simp only [readItem, hattrs, hsources, readData, ← htypes]
  refine data_readFlags a.flags ?_
  rw [htypes]
  split
  · exact h
  · exact retype_flags h

theorem name_readItem : (readItem a b n i j ci).name = ci.name := by
  have hsource : ∀ (sources : CoveritemSources) (ci : CoverIndex),
      (sources.readItem a.sources b n ci).name = ci.name := by
    intro sources ci
    rw [CoveritemSources.readItem]
    split
    · rfl
    · split
      · rfl
      · split <;> rfl
  have hflags : ∀ (flags : CoveritemFlags) (ci : CoverIndex), (flags.readItem n ci).name = ci.name := by
    intro flags ci
    rw [CoveritemFlags.readItem]
    split <;> rfl
  have htypes : ∀ (runs : CoveritemTypes) (ci : CoverIndex), (runs.readItem b n ci).name = ci.name := by
    intro runs ci
    rw [CoveritemTypes.readItem]
    split <;> rfl
  rw [readItem]
  cases a.types <;> cases a.flags <;> cases a.itemSources <;> cases a.attrs <;>
    simp [htypes, hflags, hsource, Attrs.readItem]

end NcdbReader

namespace Scope

theorem storedItem_default (s : Scope) {ci : CoverIndex} (h : ci ∈ s.coverItems) :
    (s.storedItem ci).data.flags = defaultFlags (s.storedItem ci).data.type := by
  rw [storedItem]
  split
  case isTrue  => rfl
  case isFalse =>
    cases hs : s.coverItems
    case nil  => simp [hs] at h
    case cons => rfl

end Scope

namespace NcdbReader.Read

variable {accel : Bool} {db db' : LoadedUCIS} {v2 : Option V2Members} {out : Archive}
variable {n i j : Nat} {s : Scope} {ci : CoverIndex}

-- An item outside of a toggle pair gets back what the record of its scope leaves out.
theorem data_restored (w : NcdbWriter.Written accel db v2 out) (hp : s.isTogglePair = false)
    (hn : db.placedBins[n]? = some (s, i, j, ci)) (hl : 0 ≤ ci.data.atLeast) (hg : 0 ≤ ci.data.goal) :
    (readItem out false n i j (s.storedItem ci)).data = ci.data := by
  have hci : s.coverItems[j]? = some ci := by
    have h := (MemUCIS.mem_placedBins_iff.mp (List.mem_of_getElem? hn)).2
    rwa [Scope.binItems_of_not_isTogglePair hp] at h
  obtain ⟨ci', hj, hs⟩ := MemUCIS.scopedItem_of_placed hn
  obtain rfl : ci = ci' := Option.some.inj (hci.symm.trans hj)
  obtain ⟨_, hj', hc⟩ := MemUCIS.coverItem_of_placed hn
  obtain rfl := Option.some.inj (hci.symm.trans hj')
  have hm : ci ∈ s.coverItems := List.mem_of_getElem? hci
  obtain ⟨first, cis, hf⟩ := List.exists_cons_of_ne_nil (List.ne_nil_of_mem hm)
  have hstored : (s.storedItem ci).data = { first.data with
      flags := defaultFlags first.data.type, data := ci.data.data, goal := 0
      atLeast := first.data.atLeast.toNat } := by
    rw [Scope.storedItem, if_neg (by simp [hp]), hf]
    rfl
  have hlost : CoveritemTypes.lostValues (s, ci)
      = if ci.data.values = { first.data.values with goal := 0 } then none
        else some ci.data.values := by
    simp only [CoveritemTypes.lostValues, hp, Bool.false_eq_true, if_false, hf,
      CoveritemTypes.rebuilt, List.head?_cons, Option.map_some, Option.some.injEq]
  have hflags : ∀ default flags : Nat,
      (if flags = default then none else some flags).getD default = flags := by
    intro default flags
    split <;> simp [*]
  have hd : ∀ (type : CoverTypeT) (goal atLeast : Int), type = ci.data.type → goal = ci.data.goal →
      atLeast = ci.data.atLeast →
      ({
        type    := type
        flags   := (if ci.data.flags = defaultFlags ci.data.type then none
          else some ci.data.flags).getD (defaultFlags type)
        data    := ci.data.data
        goal    := goal
        atLeast := atLeast
      } : CoverData) = ci.data := by
    intro type goal atLeast ht hg hl
    rw [ht, hg, hl, hflags]
  rw [data_readItem (s.storedItem_default hm)]
  simp only [readData, Bool.false_eq_true, if_false, w.types, w.flags, CoveritemTypes.retype,
    CoveritemTypes.valuesAt_write, CoveritemFlags.get?_write, hs, hc, Option.bind_some, hlost]
  by_cases hv : ci.data.values = { first.data.values with goal := 0 }
  case pos =>
    -- Its values are those of the first item, without a goal.
    obtain ⟨ht, hl', hg'⟩ := ItemValues.mk.inj hv
    replace hl' : ci.data.atLeast.toNat = first.data.atLeast.toNat := hl'
    replace hg' : ci.data.goal.toNat = 0 := hg'
    simp only [if_pos hv, hstored]
    exact hd first.data.type 0 _ ht.symm (by omega) (by omega)
  case neg =>
    simp only [if_neg hv, hstored]
    exact hd _ _ _ rfl (Int.toNat_of_nonneg hg) (Int.toNat_of_nonneg hl)

-- An item that is read, at the place of the item that was written.
theorem Rewritten.item {db db' : MemUCIS} (rw : Rewritten db out db')
    (hs : db.dfsScopeList[i]? = some s) (hc : s.binItems[j]? = some ci) :
    ∃ (n : Nat) (s' : Scope), db.placedBins[n]? = some (s, i, j, ci) ∧
      db'.dfsScopeList[i]? = some s' ∧ s'.isTogglePair = s.isTogglePair ∧
      s'.binItems[j]? = some (readItem out s.isTogglePair n i j (s.storedItem ci)) := by
  have ⟨n, hn⟩ := List.mem_iff_getElem?.mp (MemUCIS.mem_placedBins_iff.mpr ⟨hs, hc⟩)
  have hi := congrArg (·[n]?) rw.items
  simp only [List.getElem?_map, List.getElem?_mapIdx, hn, Option.map_some] at hi
  have ⟨⟨s', i', j', ci'⟩, hn', he⟩ := Option.map_eq_some_iff.mp hi
  simp only [Prod.mk.injEq] at he
  have ⟨hp, hi', hj', hc'⟩ := he
  have ⟨hs', hc''⟩ := MemUCIS.mem_placedBins_iff.mp (List.mem_of_getElem? hn')
  rw [hi'] at hs'
  rw [hj', hc'] at hc''
  exact ⟨n, s', hn, hs', hp, hc''⟩

end NcdbReader.Read

namespace NcdbReader

variable {accel : Bool} {db : LoadedUCIS} {v2 : Option V2Members} {out : Archive}

-- A coverpoint with an ordinary, an ignored and an excluded bin.
def mixedBins : LoadedUCIS where
  scopes := [.mk { type := .coverpoint, name := "cp" } [
    { name := "low", data := { type := .cvgBin, flags := 0x19, goal := 10 } },
    { name := "high", data := { type := .ignoreBin, flags := 1, data := 3, atLeast := 2 } },
    { name := "rest", data := { type := .cvgBin, flags := 0x39, data := 5 } }
  ] []]

end NcdbReader

-- Which bin of the count array an item of a scope tree reads.

open Scope (outline itemsAll)
open ScopeRecord (binCountAll)
open ScopeTreeReader (takeCounts readScopes)

namespace NcdbReader

-- Reading a tree with the numbers of its bins as counts.
def numberedScopes (strings : List String) (tree : List ScopeRecord) : Option (List Scope) :=
  (readScopes { strings := internAll strings, files := [] } none [] tree
    (List.range (binCountAll tree))).map Prod.fst

-- The items of a tree in creation order, each with its bin in the place of its count.
def numberedItems (strings : List String) (tree : List ScopeRecord) :
    List (Bool × String × CoverData) :=
  ((numberedScopes strings tree).map fun ss => MemUCIS.itemData { scopes := ss }).getD []

-- The bins of the items in creation order.
def binsOf (strings : List String) (tree : List ScopeRecord) : List Nat :=
  (numberedItems strings tree).map (·.snd.snd.data)

theorem takeCounts_range (n : Nat) : takeCounts n (List.range n) = List.range n := by
  apply List.ext_getElem
  · simp
  · intro i h₁ h₂
    have hi : i < n := by simpa using h₂
    simp [takeCounts, hi]

section Tree

variable {strings files : List String} {tree : List ScopeRecord} {counts rest : Counts}
variable {ss : List Scope}
variable (h : readScopes { strings := internAll strings, files := files } none [] tree counts
  = some (ss, rest))

include h

theorem exists_numberedScopes :
    ∃ ns, numberedScopes strings tree = some ns ∧
      ns.map (outline (CoverIndex.recount (counts.getD · 0)))
        = ss.map (outline (CoverIndex.recount id)) := by
  have hc : (takeCounts (binCountAll tree) (List.range (binCountAll tree))).map (counts.getD · 0)
      = (takeCounts (binCountAll tree) counts).map id := by
    rw [takeCounts_range, List.map_id, takeCounts]
  have hb : ([] : List Scope).map (outline (CoverIndex.recount (counts.getD · 0)))
      = ([] : List Scope).map (outline (CoverIndex.recount id)) := rfl
  have ⟨_, ns, hr, hns⟩ := ScopeTreeReader.readScopes_outline
    (r := { strings := internAll strings, files := files })
    (q := { strings := internAll strings, files := [] }) rfl tree hc hb h
  exact ⟨ns, by rw [numberedScopes, hr]; rfl, hns⟩

-- Every item of the tree has the count of its bin.
theorem itemData_readScopes :
    MemUCIS.itemData { scopes := ss }
      = (numberedItems strings tree).map (Read.recountData (counts.getD · 0)) := by
  have ⟨ns, hn, hns⟩ := exists_numberedScopes h
  have hi := congrArg (fun ss => MemUCIS.itemData { scopes := ss }) hns
  have hd := fun (φ : Nat → Nat) (ss : List Scope) => Read.itemData_outline φ { scopes := ss }
  simp only at hd
  rw [hd, hd] at hi
  rw [numberedItems, hn]
  refine (List.map_id _).symm.trans (Eq.trans ?_ hi.symm)
  exact List.map_congr_left fun _ _ => rfl

-- Every bin is that of one item.
theorem binsOf_perm : (binsOf strings tree).Perm (List.range (binCountAll tree)) := by
  have ⟨ns, hn, _⟩ := exists_numberedScopes h
  have ⟨⟨_, rest⟩, hr, he⟩ := Option.map_eq_some_iff.mp hn
  have ⟨new, hp, hc, _⟩ := (ScopeTreeReader.readScopes_reads tree hr).exists_new
  rw [takeCounts_range] at hc
  rw [binsOf, numberedItems, hn, ← hc, ← he, Option.map_some, Option.getD_some]
  have hm := MemUCIS.countsOf_eq { scopes := ns }
  rw [← he] at hm
  exact hm ▸ hp.map _

end Tree

namespace Read

variable {a : Archive} {runs : Option (List String)} {db : LoadedUCIS}

-- The counts of the items of a read are those of their bins.
theorem countsOf_eq_bins (rd : Read a runs db) :
    countsOf db.toMemUCIS = (binsOf a.strings a.scopeTree).map (rd.counts.getD · 0) := by
  have hd : rd.raw.itemData = _ :=
    (MemUCIS.itemData_congr rfl).trans (itemData_readScopes rd.tree)
  rw [rd.countsOf_eq, MemUCIS.countsOf_eq, hd, binsOf, List.map_map, List.map_map]
  rfl

end Read

-- The count of an item.
def countAt (n : Nat) (db : LoadedUCIS) : Nat :=
  (countsOf db.toMemUCIS).getD n 0

-- The bin of an item.
def binAt (n : Nat) (a : Archive) : Nat :=
  (binsOf a.strings a.scopeTree).getD n 0

namespace Read

variable {a : Archive} {runs : Option (List String)} {db : LoadedUCIS} {n : Nat}

theorem binsOf_length (rd : Read a runs db) :
    (binsOf a.strings a.scopeTree).length = db.coverItems.length := by
  rw [(binsOf_perm rd.tree).length_eq, List.length_range, rd.coverItems_length]

theorem countAt_eq (rd : Read a runs db) (hn : n < db.coverItems.length) :
    countAt n db = rd.counts.getD (binAt n a) 0 := by
  have hl := rd.binsOf_length ▸ hn
  rw [countAt, rd.countsOf_eq_bins, binAt, List.getD_eq_getElem _ _ (by simpa using hl),
    List.getElem_map, List.getD_eq_getElem _ _ hl]

end Read

end NcdbReader
