import Covsight.Lib.Call
import Covsight.NcdbTs.NcdbArchive
import Covsight.NcdbTs.Theorems.Codecs
import Covsight.Ncdb.NcdbMerger
import Covsight.Ncdb.Theorems.ManifestStats

-- What is left of an archive that the TypeScript library reads and writes again.

-- The walk over the scopes depends on what is compared of a tree only.

namespace TsScope

variable {d d' : TsScopeData} {is is' : List TsCoverItem} {ss ss' : List TsScope}

theorem isTogglePair_of_view (hd : d.view = d'.view) (hi : is.map (·.view) = is'.map (·.view))
    (hs : ss.length = ss'.length) : (mk d is ss).isTogglePair = (mk d' is' ss').isTogglePair := by
  have ht : d.scopeType = d'.scopeType := congrArg ScopeView.type hd
  have hl : is.length = is'.length := by simpa using congrArg List.length hi
  have hn : is.map (·.name) = is'.map (·.name) := by
    simpa [Function.comp_def, TsCoverItem.view] using congrArg (List.map ItemView.name) hi
  have hm : ∀ name, (∃ item ∈ is, item.name = name) ↔ ∃ item ∈ is', item.name = name := by
    intro name
    rw [← List.mem_map, hn, List.mem_map]
  refine decide_eq_decide.mpr ?_
  simp only [data, children, items, ht, hs, hl, hm]

theorem key_of_view {s s' : TsScope} (h : s.view = s'.view) : s.key = s'.key := by
  have ⟨d, is, ss⟩ := s
  have ⟨d', is', ss'⟩ := s'
  have hd : d.view = d'.view := (TreeView.mk.inj h).1
  exact congrArg₂ Prod.mk (congrArg ScopeView.type hd) (congrArg ScopeView.name hd)

theorem keys_of_viewAll {ss ss' : List TsScope} (h : viewAll ss = viewAll ss') :
    ss.map key = ss'.map key := by
  rw [viewAll_eq_map, viewAll_eq_map] at h
  induction ss generalizing ss'
  case nil => rw [List.map_eq_nil_iff.mp h.symm]
  case cons s ss hi =>
    cases ss'
    case nil => cases h
    case cons s' ss' =>
      have ⟨hs, hss⟩ := List.cons.inj h
      exact congrArg₂ List.cons (key_of_view hs) (hi hss)

mutual

theorem dfsScope_of_view (siblings : List (ScopeTypeT × JsString)) : (s s' : TsScope) →
    s.view = s'.view → s.dfsScope siblings = s'.dfsScope siblings
  | .mk d is ss, .mk d' is' ss', h => by
    have ⟨hd, hi, hs⟩ := TreeView.mk.inj h
    have hk := keys_of_viewAll hs
    have hl : ss.length = ss'.length := by simpa using congrArg List.length hk
    rw [dfsScope, dfsScope, isTogglePair_of_view hd hi hl, hk, dfsScopesIn_of_viewAll _ ss ss' hs]
    have ht : d.scopeType = d'.scopeType := congrArg ScopeView.type hd
    have hn : d.logicalName = d'.logicalName := congrArg ScopeView.name hd
    rw [ht, hn]

theorem dfsScopesIn_of_viewAll (siblings : List (ScopeTypeT × JsString)) :
    (ss ss' : List TsScope) → viewAll ss = viewAll ss' →
    dfsScopesIn siblings ss = dfsScopesIn siblings ss'
  | [],      [],        _ => rfl
  | [],      _ :: _,    h => by cases h
  | _ :: _,  [],        h => by cases h
  | s :: ss, s' :: ss', h => by
    have ⟨hs, hss⟩ := List.cons.inj h
    rw [dfsScopesIn, dfsScopesIn, dfsScope_of_view siblings s s' hs,
      dfsScopesIn_of_viewAll siblings ss ss' hss]

end

theorem dfsScopes_of_view (h : ss.map view = ss'.map view) : dfsScopes ss = dfsScopes ss' := by
  rw [← viewAll_eq_map, ← viewAll_eq_map] at h
  rw [dfsScopes, dfsScopes, keys_of_viewAll h, dfsScopesIn_of_viewAll _ _ _ h]

end TsScope

-- Crosses.

namespace TsCross

variable {scopes : List WalkedScope} {siblings : List (ScopeTypeT × JsString)} {name : JsString}
  {p : Nat}

-- A point is the last sibling of its own name.
theorem name_of_pointOf (h : pointOf siblings name = some p) :
    siblings[p]?.map Prod.snd = some name := by
  rw [pointOf, Option.map_eq_some_iff] at h
  have ⟨⟨sibling, i⟩, hf, hi⟩ := h
  have ⟨hf, _⟩ := Option.filter_eq_some_iff.mp hf
  have hm := List.mem_reverse.mp (List.mem_of_find?_eq_some hf)
  have hn := List.find?_some hf
  obtain rfl : i = p := hi
  rw [List.mem_zipIdx_iff_getElem?.mp hm]
  exact congrArg some (of_decide_eq_true hn)

-- Every cross has points that its siblings are found by.
def Settled (scopes : List WalkedScope) (crosses : Dict Nat CrossedPoints) : Prop :=
  ∀ i points, crosses.get? i = some points → ∃ scope, scopes[i]? = some scope ∧
    scope.type = .cross ∧ ∀ p ∈ points, ∃ name, pointOf scope.siblings name = some p

theorem settled_readEntry {crosses : Dict Nat CrossedPoints} (h : Settled scopes crosses)
    (entry : CrossEntry) : Settled scopes (readEntry scopes crosses entry) := by
  rw [readEntry]
  split
  case h_1 => exact h
  case h_2 i hi =>
    split
    case h_1 => exact h
    case h_2 scope hs =>
      split
      case isFalse => exact h
      case isTrue ht =>
        intro j points hj
        rw [Dict.get?_set] at hj
        split at hj
        case isTrue he =>
          obtain rfl : i = j := he
          cases hj
          refine ⟨scope, hs, ht, fun p hp => ?_⟩
          have ⟨name, _, hn⟩ := List.mem_filterMap.mp hp
          exact ⟨name, hn⟩
        case isFalse => exact h j points hj

theorem settled_read {member : Option CrossMember} {crosses : Dict Nat CrossedPoints}
    (h : read scopes member = some crosses) : Settled scopes crosses := by
  have he : Settled scopes ∅ := fun i points hi => by cases hi
  cases member
  case none =>
    cases h
    exact he
  case some member =>
    rw [read] at h
    split at h
    case isFalse => cases h
    case isTrue  =>
      cases h
      exact List.foldlRecOn _ _ he fun _ hc entry _ => settled_readEntry hc entry

-- The names of the points lead back to them.
theorem filterMap_crossedNames {scope : WalkedScope} {points : CrossedPoints}
    (h : ∀ p ∈ points, ∃ name, pointOf scope.siblings name = some p) :
    (crossedNames scope points).filterMap (pointOf scope.siblings) = points := by
  induction points
  case nil => rfl
  case cons p points hi =>
    have ⟨name, hp⟩ := h p (.head _)
    have hn : crossedNames scope (p :: points) = name :: crossedNames scope points :=
      List.filterMap_cons_some (name_of_pointOf hp)
    rw [hn, List.filterMap_cons_some hp, hi fun q hq => h q (.tail _ hq)]

theorem Settled.points {db : TsDatabase} (hc : Settled scopes db.crosses) {i : Nat}
    {scope : WalkedScope} (hs : scopes[i]? = some scope) :
    (scope.type ≠ .cross → db.crossedPoints i = []) ∧
      (crossedNames scope (db.crossedPoints i)).filterMap (pointOf scope.siblings)
        = db.crossedPoints i := by
  rw [TsDatabase.crossedPoints]
  cases hg : db.crosses.get? i
  case none        => exact ⟨fun _ => rfl, rfl⟩
  case some points =>
    have ⟨scope', hs', ht, hn⟩ := hc i points hg
    obtain rfl : scope' = scope := Option.some.inj (hs'.symm.trans hs)
    exact ⟨fun hne => absurd ht hne, filterMap_crossedNames hn⟩

-- The entry that is written for a scope puts its points back.
theorem readEntry_writeEntry {db : TsDatabase} {crosses : Dict Nat CrossedPoints} {i : Nat}
    {scope : WalkedScope} {entry : CrossEntry} (hc : Settled scopes db.crosses)
    (hs : scopes[i]? = some scope) (h : writeEntry db scope i = some entry) :
    readEntry scopes crosses entry = crosses.set i (db.crossedPoints i) := by
  rw [writeEntry] at h
  split at h
  case isFalse => cases h
  case isTrue ht =>
    cases h
    simp only [readEntry, hs, ht.left, if_true, Option.getD_some, (hc.points hs).right]

-- A scope without an entry has no points.
theorem crossedPoints_of_writeEntry {db : TsDatabase} {i : Nat} {scope : WalkedScope}
    (hc : Settled scopes db.crosses) (hs : scopes[i]? = some scope)
    (h : writeEntry db scope i = none) : db.crossedPoints i = [] := by
  have ⟨hne, hp⟩ := hc.points hs
  rw [writeEntry] at h
  split at h
  case isTrue => cases h
  case isFalse hn =>
    by_cases ht : scope.type = .cross
    case neg => exact hne ht
    case pos =>
      have hz : crossedNames scope (db.crossedPoints i) = [] := by
        by_contra hz
        exact hn ⟨ht, hz⟩
      rw [← hp, hz]
      rfl

def entriesFrom (db : TsDatabase) (scopes : List (WalkedScope × Nat)) : List CrossEntry :=
  scopes.filterMap fun x => writeEntry db x.fst x.snd

-- Each of the scopes whose entries are read has the points that it had before.
theorem get?_foldl_readEntry {db : TsDatabase} (hc : Settled scopes db.crosses)
    {rest : List (WalkedScope × Nat)} (hr : ∀ x ∈ rest, scopes[x.snd]? = some x.fst)
    (hn : (rest.map Prod.snd).Nodup) {crosses : Dict Nat CrossedPoints}
    (hx : ∀ x ∈ rest, crosses.get? x.snd = none) (i : Nat) :
    (((entriesFrom db rest).foldl (readEntry scopes) crosses).get? i).getD []
      = if i ∈ rest.map Prod.snd then db.crossedPoints i else (crosses.get? i).getD [] := by
  induction rest generalizing crosses
  case nil => rfl
  case cons x rest hi =>
    have ⟨scope, j⟩ := x
    have hs : scopes[j]? = some scope := hr _ (.head _)
    have ⟨hj, hn⟩ := List.nodup_cons.mp hn
    have hx' : ∀ y ∈ rest, crosses.get? y.snd = none := fun y hy => hx y (.tail _ hy)
    have hr' : ∀ y ∈ rest, scopes[y.snd]? = some y.fst := fun y hy => hr y (.tail _ hy)
    have hm (h : i ≠ j) : i ∈ ((scope, j) :: rest).map Prod.snd ↔ i ∈ rest.map Prod.snd := by
      rw [List.map_cons, List.mem_cons, or_iff_right h]
    cases he : writeEntry db scope j
    case none =>
      have hz : entriesFrom db ((scope, j) :: rest) = entriesFrom db rest :=
        List.filterMap_cons_none he
      rw [hz, hi hr' hn hx']
      by_cases h : i = j
      case pos =>
        subst h
        rw [if_neg hj, if_pos (.head _), hx _ (.head _), crossedPoints_of_writeEntry hc hs he]
        rfl
      case neg => rw [if_congr (hm h) rfl rfl]
    case some entry =>
      have hx'' : ∀ y ∈ rest, (crosses.set j (db.crossedPoints j)).get? y.snd = none := by
        intro y hy
        have hne : j ≠ y.snd := by
          intro he
          exact hj (he ▸ List.mem_map.mpr ⟨y, hy, rfl⟩)
        rw [Dict.get?_set_of_ne hne, hx' y hy]
      have hz : entriesFrom db ((scope, j) :: rest) = entry :: entriesFrom db rest :=
        List.filterMap_cons_some he
      rw [hz, List.foldl_cons, readEntry_writeEntry hc hs he, hi hr' hn hx'']
      by_cases h : i = j
      case pos =>
        subst h
        rw [if_neg hj, if_pos (.head _), Dict.get?_set_self]
        rfl
      case neg => rw [if_congr (hm h) rfl rfl, Dict.get?_set_of_ne (Ne.symm h)]

-- The crosses that are written are read back.
theorem read_of_write {db : TsDatabase} (hs : TsScope.dfsScopes db.children = scopes)
    (hc : Settled scopes db.crosses) :
    ∃ crosses, read scopes (write db) = some crosses ∧
      ∀ i, (crosses.get? i).getD [] = db.crossedPoints i := by
  have hr : ∀ x ∈ scopes.zipIdx, scopes[x.snd]? = some x.fst :=
    fun x hx => List.mem_zipIdx_iff_getElem?.mp hx
  have hn : (scopes.zipIdx.map Prod.snd).Nodup := by
    rw [List.zipIdx_map_snd]
    exact List.nodup_range'
  have he := get?_foldl_readEntry hc hr hn (fun x _ => Dict.get?_empty x.snd)
  have hout : ∀ i, i ∉ scopes.zipIdx.map Prod.snd → db.crossedPoints i = [] := by
    intro i hi
    rw [TsDatabase.crossedPoints]
    cases hg : db.crosses.get? i
    case none        => rfl
    case some points =>
      have ⟨scope, hs, _⟩ := hc i points hg
      exact absurd (List.mem_map.mpr ⟨(scope, i), List.mem_zipIdx_iff_getElem?.mpr hs, rfl⟩) hi
  have hall : ∀ i, (((entriesFrom db scopes.zipIdx).foldl (readEntry scopes) ∅).get? i).getD []
      = db.crossedPoints i := by
    intro i
    rw [he i]
    split
    case isTrue     => rfl
    case isFalse hi => rw [hout i hi, Dict.get?_empty]; rfl
  rw [write, hs]
  split
  case isFalse => exact ⟨_, rfl, hall⟩
  case isTrue hz =>
    refine ⟨∅, rfl, fun i => ?_⟩
    rw [← hall i, entriesFrom, List.isEmpty_iff.mp hz]
    rfl

end TsCross

-- Design units.

namespace TsDesignUnits

-- Every unit is found at the place that its entry names.
theorem filterMap_readEntry_units (scopes : List WalkedScope) :
    ((units scopes).map fun (name, i) => DesignUnitEntry.mk name (some i)).filterMap (readEntry scopes)
      = units scopes := by
  rw [List.filterMap_map]
  refine (List.filterMap_congr fun x hx => ?_).trans List.filterMap_some
  obtain ⟨⟨scope, i⟩, hi, hx⟩ := List.mem_filterMap.mp hx
  have hl : i < scopes.length := by
    have hi := List.mem_zipIdx_iff_getElem?.mp hi
    exact (List.getElem?_eq_some_iff.mp hi).1
  by_cases hd : scope.type.duAny
  case neg => simp [hd] at hx
  case pos =>
    simp only [hd, if_true, Option.some.injEq] at hx
    subst hx
    simp [readEntry, hl]

theorem buildIndex_write {db : TsDatabase} {scopes : List WalkedScope}
    (hs : TsScope.dfsScopes db.children = scopes) :
    buildIndex scopes (write db) = some (treeIndex scopes) := by
  rw [write, hs]
  split
  case isTrue hz => rfl
  case isFalse =>
    rw [buildIndex, if_pos rfl, Option.getD_some, filterMap_readEntry_units]
    rfl

end TsDesignUnits

-- History nodes, issues and their metadata.

theorem TsHistoryNodeKind.parse_toWord (kind : TsHistoryNodeKind) :
    parse (some (.word kind.toWord)) = kind := by
  cases kind <;> rfl

theorem TsHistoryRecord.flatOr_self (s : JsString) : flatOr (some s) (some s) = s := by
  rw [flatOr]
  split
  case isTrue  => rfl
  case isFalse => rfl

theorem TsHistoryNode.read_of_write (node : TsHistoryNode) : node.write.read = node := by
  have ⟨kind, testName, testData⟩ := node
  have hk := TsHistoryNodeKind.parse_toWord kind
  cases testData
  case none    => simp [write, TsHistoryRecord.read, TsHistoryRecord.hasTestData, hk]
  case some td =>
    simp [write, TsHistoryRecord.read, TsHistoryRecord.hasTestData, TsHistoryRecord.readTestData,
      TsTestData.raw, TsHistoryRecord.flatOr_self, hk]

-- Issues come back if and only if no string of theirs starts with a byte order mark.
theorem TsIssueSet.fromBytes_serialize_iff {set : TsIssueSet} (hn : set.strings.Nodup) :
    fromBytes set.serialize = some set ↔ ∀ s ∈ set.strings, s.IsText := by
  have hs : fromBytes set.serialize = some { set with
      strings := internAll (set.strings.map (textDecode ∘ textEncode)) } := by
    simp [fromBytes, serialize, List.map_map, issuesMagic, issuesVersion]
  rw [hs, Option.some.injEq]
  constructor
  case mp =>
    intro h
    have h : internAll (set.strings.map (textDecode ∘ textEncode)) = set.strings :=
      congrArg TsIssueSet.strings h
    refine (getElem?_internAll_map_iff (g := id) (by rwa [List.map_id])).mp fun i _ => ?_
    exact (congrArg (·[i]?) h).trans Option.map_id'.symm
  case mpr =>
    intro h
    have he : set.strings.map (textDecode ∘ textEncode) = set.strings :=
      (List.map_congr_left h).trans (List.map_id' _)
    rw [he, internAll_of_nodup hn]

namespace TsIssuesMeta

theorem unlessEmpty_getD (s : JsString) : (unlessEmpty s).getD [] = s := by
  rw [unlessEmpty]
  split
  case isTrue h  => exact h.symm
  case isFalse   => rfl

-- An entry without title and address is written as none, which says the same.
theorem serializeEntry_getD (entry : Option (JsString × JsString)) :
    ((entry.bind serializeEntry).map fun e => (e.ti.getD [], e.ur.getD [])).getD ([], [])
      = entry.getD ([], []) := by
  cases entry
  case none       => rfl
  case some entry =>
    rw [Option.bind_some, serializeEntry]
    split
    case isTrue h  => exact Prod.ext h.left.symm h.right.symm
    case isFalse   => exact Prod.ext (unlessEmpty_getD _) (unlessEmpty_getD _)

theorem titleAndUrl_reread {titles titles' : TsIssuesMeta}
    (h : fromJson titles.serialize = some titles') : titles'.titleAndUrl = titles.titleAndUrl := by
  cases h
  funext i
  have he : (((titles.entries.map (Option.bind · serializeEntry)).map
      (Option.map fun e => (e.ti.getD [], e.ur.getD [])))[i]?.bind id).getD ([], [])
      = (titles.entries[i]?.bind id).getD ([], []) := by
    rw [List.getElem?_map, List.getElem?_map]
    cases titles.entries[i]?
    case none       => rfl
    case some entry => exact serializeEntry_getD entry
  simp only [titleAndUrl, Option.getD_some, he]

end TsIssuesMeta

-- What a user of a database sees: the claims of its parts are compared by what they give.

namespace TsDatabase

variable {db db' : TsDatabase} {a : TsArchive} {calls : List Accessor}

-- The titles and addresses that the metadata give, if there are any and they can be read.
def issuesMetaView (db : TsDatabase) :
    Option (Option (Nat → Option JsString × Option JsString)) :=
  db.getIssuesMeta.map fun x => x.fst.map TsIssuesMeta.titleAndUrl

structure SameContent (db db' : TsDatabase) : Prop where
  scopes       : db'.children.map TsScope.view = db.children.map TsScope.view
  crosses      : ∀ i, db'.crossedPoints i = db.crossedPoints i
  duIndex      : ∀ name, db'.duIndex.get? name = db.duIndex.get? name
  historyNodes : db'.historyNodes = db.historyNodes
  issues       : db'.issues = db.issues
  issuesMeta   : db'.issuesMetaView = db.issuesMetaView
  issueHistory : db'.issueHistory = db.issueHistory

-- Nothing is lost if the database is saved after some calls and read again.
def SurvivesSave (db : TsDatabase) (calls : List Accessor) : Prop :=
  ∃ a db', TsNcdbWriter.toBytes (db.callAll calls) = some a ∧
    TsNcdbReader.readFromBytes a = .ok db' ∧ db.SameContent db'

structure Savable (db : TsDatabase) (calls : List Accessor) : Prop where
  names        : ∀ name ∈ TsScope.namesAll db.children, name.IsText
  scopes       : TsScope.ReadsBackAll (db.callAll calls).filePaths db.children
  duIndex      : ∀ name, db.duIndex.get? name
    = (TsDesignUnits.treeIndex (TsScope.dfsScopes db.children)).get? name
  issues       : ∀ set ∈ db.issues, ∀ s ∈ set.strings, s.IsText
  issuesMeta   : db.issuesMetaRaw = none ∨
    (.getIssuesMeta ∈ calls ∧ db.issuesMetaRaw ≠ some .malformed)
  issueHistory : db.issueHistory = none

end TsDatabase

namespace TsNcdbReader

variable {a : TsArchive} {db : TsDatabase}

theorem orThrow_eq_ok_iff {α : Type} {e : TsNcdbError} {o : Option α} {x : α} :
    e.orThrow o = .ok x ↔ o = some x := by
  cases o <;> simp [TsNcdbError.orThrow]

theorem readFromBytes_eq_ok_iff : readFromBytes a = .ok db ↔
    ∃ manifest, a.manifest = some manifest ∧ checkManifest manifest = .ok () ∧
    ∃ members, requiredMembers a = some members ∧
    ∃ children, members.readTs = some children ∧
    ∃ crosses, TsCross.read (TsScope.dfsScopes children) a.cross = some crosses ∧
    ∃ issues, readOptional TsIssueSet.fromBytes a.issues = some issues ∧
    ∃ history, readOptional IssuesHistoryMember.open? a.issuesHistory = some history ∧
    ∃ duIndex, TsDesignUnits.buildIndex (TsScope.dfsScopes children) a.designUnits = some duIndex ∧
    db = {
      filePaths     := internAll members.files
      children      := children
      crosses       := crosses
      duIndex       := duIndex
      historyNodes  := (a.history.getD []).map TsHistoryRecord.read
      issues        := issues
      issuesMetaRaw := a.issuesMeta
      issueHistory  := history
    } := by
  simp only [readFromBytes, bind_ok_iff, orThrow_eq_ok_iff, Unique.exists_iff,
    PUnit.default_eq_unit, pure, Except.pure, Except.ok.injEq, eq_comm (a := db)]

end TsNcdbReader

namespace TsDatabase

variable {db db' : TsDatabase} {a : TsArchive} {calls : List Accessor}

-- What the reader gives.
structure AsRead (db : TsDatabase) : Prop where
  settled    : TsCross.Settled (TsScope.dfsScopes db.children) db.crosses
  strings    : ∀ set ∈ db.issues, set.strings.Nodup
  issuesMeta : db.issuesMeta = none
  writer     : db.issueHistoryWriter = none

theorem nodup_fromBytes {m : IssuesMember} {set : TsIssueSet}
    (h : TsIssueSet.fromBytes m = some set) : set.strings.Nodup := by
  rw [TsIssueSet.fromBytes] at h
  split at h
  case isTrue  => cases h
  case isFalse =>
    cases h
    exact nodup_internAll _

theorem asRead (h : TsNcdbReader.readFromBytes a = .ok db) : db.AsRead := by
  have ⟨_, _, _, members, _, children, _, crosses, hc, issues, hi, _, _, _, _, h⟩ :=
    TsNcdbReader.readFromBytes_eq_ok_iff.mp h
  subst h
  refine ⟨TsCross.settled_read hc, fun set hs => ?_, rfl, rfl⟩
  cases ha : a.issues <;> rw [ha] at hi
  case none =>
    cases hi
    cases hs
  case some m =>
    have ⟨set', hset, he⟩ := Option.map_eq_some_iff.mp hi
    subst he
    exact Option.some.inj hs ▸ nodup_fromBytes hset

-- Calls leave everything but the table of paths and the metadata of issues as it is.
structure Unchanged (db db' : TsDatabase) : Prop where
  children     : db'.children = db.children
  crosses      : db'.crosses = db.crosses
  historyNodes : db'.historyNodes = db.historyNodes
  issues       : db'.issues = db.issues
  writer       : db'.issueHistoryWriter = db.issueHistoryWriter

theorem unchanged_call (db : TsDatabase) (c : Accessor) : Unchanged db (db.call c) := by
  cases c
  case getFileHandle => exact ⟨rfl, rfl, rfl, rfl, rfl⟩
  case getIssuesMeta =>
    rw [call, getIssuesMeta]
    split
    case h_1 raw _ _ => cases TsIssuesMeta.fromJson raw <;> exact ⟨rfl, rfl, rfl, rfl, rfl⟩
    case h_2         => exact ⟨rfl, rfl, rfl, rfl, rfl⟩

theorem unchanged_callAll (db : TsDatabase) (calls : List Accessor) :
    Unchanged db (db.callAll calls) := by
  induction calls generalizing db
  case nil => exact ⟨rfl, rfl, rfl, rfl, rfl⟩
  case cons c calls hi =>
    have h := unchanged_call db c
    have h' := hi (db.call c)
    exact ⟨h'.children.trans h.children, h'.crosses.trans h.crosses,
      h'.historyNodes.trans h.historyNodes, h'.issues.trans h.issues, h'.writer.trans h.writer⟩

theorem issuesMeta_callAll_of_some {titles : TsIssuesMeta} (h : db.issuesMeta = some titles) :
    (db.callAll calls).issuesMeta = some titles := by
  induction calls generalizing db
  case nil => exact h
  case cons c calls hi =>
    refine @hi (db.call c) ?_
    cases c
    case getFileHandle => exact h
    case getIssuesMeta => simp [call, getIssuesMeta, h]

-- The text is parsed if its accessor is called.
theorem issuesMeta_callAll (h : db.issuesMeta = none) : (db.callAll calls).issuesMeta
    = if .getIssuesMeta ∈ calls then db.issuesMetaRaw.bind TsIssuesMeta.fromJson else none := by
  induction calls generalizing db
  case nil => exact h
  case cons c calls hi =>
    cases c
    case getFileHandle path =>
      refine (@hi (db.getFileHandle path) h).trans ?_
      simp [getFileHandle]
    case getIssuesMeta =>
      rw [if_pos (.head _)]
      cases hr : db.issuesMetaRaw.bind TsIssuesMeta.fromJson
      case none =>
        have hc : db.call .getIssuesMeta = db := by
          cases hraw : db.issuesMetaRaw <;> simp_all [call, getIssuesMeta]
        refine (congrArg (fun db : TsDatabase => (db.callAll calls).issuesMeta) hc).trans ?_
        rw [hi h, hr, ite_self]
      case some titles =>
        have ⟨raw, hraw, hj⟩ := Option.bind_eq_some_iff.mp hr
        have hs : (db.call .getIssuesMeta).issuesMeta = some titles := by
          simp [call, getIssuesMeta, h, hraw, hj]
        have hc : ((db.call .getIssuesMeta).callAll calls).issuesMeta = some titles :=
          issuesMeta_callAll_of_some hs
        exact hc

-- What the metadata give as long as only their text is there.
theorem issuesMetaView_of_none (h : db.issuesMeta = none) : db.issuesMetaView =
    match db.issuesMetaRaw with
    | none     => some none
    | some raw => (TsIssuesMeta.fromJson raw).map fun titles => some titles.titleAndUrl := by
  rw [issuesMetaView, getIssuesMeta, h]
  cases db.issuesMetaRaw
  case none     => rfl
  case some raw => cases hj : TsIssuesMeta.fromJson raw <;> simp [hj]

-- The metadata look the same if there are none or if they were parsed.
theorem issuesMetaView_iff (h : db.issuesMeta = none) (hd : db'.issuesMeta = none)
    (hr : db'.issuesMetaRaw = (db.callAll calls).issuesMeta.map TsIssuesMeta.serialize) :
    db'.issuesMetaView = db.issuesMetaView ↔ db.issuesMetaRaw = none ∨
      (.getIssuesMeta ∈ calls ∧ db.issuesMetaRaw ≠ some .malformed) := by
  rw [issuesMeta_callAll h] at hr
  rw [issuesMetaView_of_none hd, issuesMetaView_of_none h, hr]
  cases db.issuesMetaRaw
  case none     => simp
  case some raw =>
    cases raw
    case malformed => simp [TsIssuesMeta.fromJson]
    case json m    =>
      by_cases hc : .getIssuesMeta ∈ calls
      case neg => simp [hc, TsIssuesMeta.fromJson]
      case pos =>
        have ⟨titles, ht⟩ : ∃ titles, TsIssuesMeta.fromJson (.json m) = some titles := ⟨_, rfl⟩
        have ⟨titles', ht'⟩ : ∃ titles', TsIssuesMeta.fromJson titles.serialize = some titles' :=
          ⟨_, rfl⟩
        simp [hc, ht, ht', TsIssuesMeta.titleAndUrl_reread ht']

end TsDatabase

namespace TsNcdbWriter

open TsDatabase

variable {db db' : TsDatabase} {a : TsArchive} {calls : List Accessor}

theorem checkManifest_manifestText :
    TsNcdbReader.checkManifest (Json.units manifestText) = .ok () := by
  decide +kernel

theorem toBytes_eq_some_iff : toBytes db = some a ↔ ∃ m, db.toTsUCIS.write = some m ∧ a = {
    manifest      := some (Json.units manifestText)
    strings       := some m.strings
    scopeTree     := some m.scopeTree
    counts        := some m.counts
    sources       := some m.files
    cross         := TsCross.write db
    issues        := db.issues.map TsIssueSet.serialize
    issuesMeta    := db.issuesMeta.map TsIssuesMeta.serialize
    issuesHistory := db.issueHistoryWriter.map .deflate
    designUnits   := TsDesignUnits.write db
    history       := some (db.historyNodes.map TsHistoryNode.write)
  } := by
  simp [toBytes, Option.bind_eq_some_iff, eq_comm (a := a)]

-- What is read of an archive that was just written, part by part.
theorem readFromBytes_toBytes_iff {m : ScopeTreeMembers} (hm : db.toTsUCIS.write = some m)
    (h : toBytes db = some a) (hw : db.issueHistoryWriter = none) :
    TsNcdbReader.readFromBytes a = .ok db' ↔ ∃ children, m.readTs = some children ∧
      ∃ crosses, TsCross.read (TsScope.dfsScopes children) (TsCross.write db) = some crosses ∧
      ∃ issues, TsNcdbReader.readOptional TsIssueSet.fromBytes
        (db.issues.map TsIssueSet.serialize) = some issues ∧
      ∃ duIndex, TsDesignUnits.buildIndex (TsScope.dfsScopes children) (TsDesignUnits.write db)
        = some duIndex ∧
      db' = {
        filePaths     := internAll m.files
        children      := children
        crosses       := crosses
        duIndex       := duIndex
        historyNodes  := db.historyNodes
        issues        := issues
        issuesMetaRaw := db.issuesMeta.map TsIssuesMeta.serialize
      } := by
  have ⟨m', hm', ha⟩ := toBytes_eq_some_iff.mp h
  obtain rfl : m = m' := Option.some.inj (hm.symm.trans hm')
  have hh : (db.historyNodes.map TsHistoryNode.write).map TsHistoryRecord.read = db.historyNodes := by
    rw [List.map_map]
    exact (List.map_congr_left fun node _ => node.read_of_write).trans (List.map_id' _)
  rw [TsNcdbReader.readFromBytes_eq_ok_iff]
  subst ha
  constructor
  case mp =>
    intro ⟨_, _, _, members, hmem, children, ht, crosses, hc, issues, hi, history, hy, duIndex, hd,
      he⟩
    cases hmem
    rw [hw] at hy
    cases hy
    exact ⟨children, ht, crosses, hc, issues, hi, duIndex, hd,
      he.trans (by simp only [Option.getD_some, hh])⟩
  case mpr =>
    intro ⟨children, ht, crosses, hc, issues, hi, duIndex, hd, he⟩
    refine ⟨_, rfl, checkManifest_manifestText, m, rfl, children, ht, crosses, hc, issues, hi, none,
      ?_, duIndex, hd, he.trans (by simp only [Option.getD_some, hh])⟩
    rw [hw]
    rfl

end TsNcdbWriter

namespace TsDatabase

variable {db : TsDatabase} {a : TsArchive}

-- The issues are read back if and only if all of their strings are text.
theorem readOptional_serialize_iff {issues : Option TsIssueSet}
    (hn : ∀ set ∈ issues, set.strings.Nodup) :
    TsNcdbReader.readOptional TsIssueSet.fromBytes (issues.map TsIssueSet.serialize) = some issues ↔
      ∀ set ∈ issues, ∀ s ∈ set.strings, s.IsText := by
  cases issues
  case none     => simp [TsNcdbReader.readOptional]
  case some set =>
    simp only [Option.mem_def, Option.some.injEq, forall_eq'] at hn ⊢
    rw [← TsIssueSet.fromBytes_serialize_iff hn, Option.map_some, TsNcdbReader.readOptional,
      Option.map_eq_some_iff]
    simp

-- A database that was read survives a save if and only if its names are text, its scopes can be
-- stored, its design units are those of the tree, the strings of its issues are text, the metadata
-- of its issues were asked for if there are any, and there is no history of issues.
theorem survivesSave_iff (h : TsNcdbReader.readFromBytes a = .ok db) (calls : List Accessor) :
    db.SurvivesSave calls ↔ db.Savable calls := by
  have hr := asRead h
  have hu := unchanged_callAll db calls
  have hw : (db.callAll calls).issueHistoryWriter = none := hu.writer.trans hr.writer
  have hdfs : TsScope.dfsScopes (db.callAll calls).children = TsScope.dfsScopes db.children :=
    congrArg TsScope.dfsScopes hu.children
  have hcr : (db.callAll calls).crosses = db.crosses := hu.crosses
  constructor
  case mp =>
    intro ⟨a', db', ha, hb, hs⟩
    have ⟨m, hm, _⟩ := TsNcdbWriter.toBytes_eq_some_iff.mp ha
    have ⟨children, ht, crosses, _, issues, hi, duIndex, hd, he⟩ :=
      (TsNcdbWriter.readFromBytes_toBytes_iff hm ha hw).mp hb
    have ⟨_, _, _, hwrote⟩ := TsUCIS.wrote_of_write hm
    subst he
    have ⟨hnames, hscopes⟩ := hwrote.readTs_iff.mp ⟨children, ht, hu.children ▸ hs.scopes⟩
    have hsame : TsScope.dfsScopes children = TsScope.dfsScopes db.children :=
      TsScope.dfsScopes_of_view hs.scopes
    rw [hsame, TsDesignUnits.buildIndex_write hdfs] at hd
    cases hd
    obtain rfl : issues = db.issues := hs.issues
    rw [hu.issues] at hi
    exact {
      names        := hu.children ▸ hnames
      scopes       := by rwa [← hu.children]
      duIndex      := fun name => (hs.duIndex name).symm
      issues       := (readOptional_serialize_iff hr.strings).mp hi
      issuesMeta   := (issuesMetaView_iff hr.issuesMeta rfl rfl).mp hs.issuesMeta
      issueHistory := hs.issueHistory.symm
    }
  case mpr =>
    intro hs
    have hscopes : TsScope.ReadsBackAll (db.callAll calls).filePaths (db.callAll calls).children := by
      rw [hu.children]
      exact hs.scopes
    have hnames : ∀ name ∈ TsScope.namesAll (db.callAll calls).children, name.IsText := by
      rw [hu.children]
      exact hs.names
    have ⟨m, hm⟩ : ∃ m, (db.callAll calls).toTsUCIS.write = some m := TsUCIS.exists_write hscopes
    have ⟨_, _, _, hwrote⟩ := TsUCIS.wrote_of_write hm
    have ⟨children, ht, hv⟩ := hwrote.readTs_iff.mpr ⟨hnames, hscopes⟩
    rw [hu.children] at hv
    have hsame : TsScope.dfsScopes children = TsScope.dfsScopes db.children :=
      TsScope.dfsScopes_of_view hv
    have hset : TsCross.Settled (TsScope.dfsScopes children) (db.callAll calls).crosses := by
      rw [hcr, hsame]
      exact hr.settled
    have ⟨crosses, hc, hp⟩ := TsCross.read_of_write (hdfs.trans hsame.symm) hset
    have hi := (readOptional_serialize_iff hr.strings).mpr hs.issues
    rw [← hu.issues] at hi
    have hd := TsDesignUnits.buildIndex_write (hdfs.trans hsame.symm)
    have ⟨a', ha⟩ : ∃ a', TsNcdbWriter.toBytes (db.callAll calls) = some a' :=
      ⟨_, TsNcdbWriter.toBytes_eq_some_iff.mpr ⟨m, hm, rfl⟩⟩
    have hb := (TsNcdbWriter.readFromBytes_toBytes_iff hm ha hw).mpr
      ⟨children, ht, crosses, hc, _, hi, _, hd, rfl⟩
    refine ⟨a', _, ha, hb, ?_⟩
    exact {
      scopes       := hv
      crosses      := fun i => (hp i).trans (by rw [crossedPoints, crossedPoints, hcr])
      duIndex      := fun name => by rw [hs.duIndex name, ← hsame]
      historyNodes := hu.historyNodes
      issues       := hu.issues
      issuesMeta   := (issuesMetaView_iff hr.issuesMeta rfl rfl).mpr hs.issuesMeta
      issueHistory := hs.issueHistory.symm
    }

-- An archive with metadata of an issue and, if there is one, its history.

def titledIssue (history : Option IssueTransitions) : TsArchive where
  manifest      := some (Json.units TsNcdbWriter.manifestText)
  strings       := some [""]
  scopeTree     := some []
  counts        := some []
  issuesMeta    := some (.json (some [some { ti := some (.ofString "late reset") }]))
  issuesHistory := history.map .deflate

def titledIssueDb (history : Option IssueTransitions) : TsDatabase where
  filePaths     := []
  children      := []
  issuesMetaRaw := (titledIssue history).issuesMeta
  issueHistory  := history

def oneTransition : IssueTransitions where
  ids      := ["I1"]
  comments := []
  index    := [(0, 0, 1)]
  tsBase   := 5
  rows     := [(0, 1, 0xFFFF)]

theorem readFromBytes_titledIssue {history : Option IssueTransitions}
    (h : ∀ t ∈ history, IssuesHistoryMember.open? (.deflate t) = some t) :
    TsNcdbReader.readFromBytes (titledIssue history) = .ok (titledIssueDb history) := by
  have hh : TsNcdbReader.readOptional IssuesHistoryMember.open? (titledIssue history).issuesHistory
      = some history := by
    cases history
    case none   => rfl
    case some t => exact congrArg (Option.map some) (h t rfl)
  rw [TsNcdbReader.readFromBytes_eq_ok_iff]
  exact ⟨_, rfl, TsNcdbWriter.checkManifest_manifestText, _, rfl, [], rfl, ∅, rfl, none, rfl, _, hh,
    ∅, rfl, rfl⟩

-- The title is kept if it was asked for.
theorem survivesSave_titledIssue : (titledIssueDb none).SurvivesSave [.getIssuesMeta] :=
  (survivesSave_iff (readFromBytes_titledIssue (by simp)) _).mpr {
    names        := nofun
    scopes       := trivial
    duIndex      := fun _ => rfl
    issues       := nofun
    issuesMeta   := .inr ⟨.head _, nofun⟩
    issueHistory := rfl
  }

-- The history is not written, whatever is called, and the title only if it was asked for.
theorem titledIssue_lost : ∃ db, TsNcdbReader.readFromBytes (titledIssue (some oneTransition)) = .ok db ∧
    (∀ calls, ¬db.SurvivesSave calls) ∧
    ∃ db', TsNcdbReader.readFromBytes (titledIssue none) = .ok db' ∧ ¬db'.SurvivesSave [] := by
  refine ⟨_, readFromBytes_titledIssue fun t ht => Option.some.inj ht ▸ rfl, ?_, _,
    readFromBytes_titledIssue (by simp), ?_⟩
  case refine_1 =>
    intro calls ⟨a, db', ha, hb, hs⟩
    have ⟨m, hm, _⟩ := TsNcdbWriter.toBytes_eq_some_iff.mp ha
    have hw := (unchanged_callAll (titledIssueDb (some oneTransition)) calls).writer
    have ⟨_, _, _, _, _, _, _, _, he⟩ := (TsNcdbWriter.readFromBytes_toBytes_iff hm ha hw).mp hb
    subst he
    cases hs.issueHistory
  case refine_2 =>
    intro ⟨a, db', ha, hb, hs⟩
    have ⟨m, hm, _⟩ := TsNcdbWriter.toBytes_eq_some_iff.mp ha
    have ⟨_, _, _, _, _, _, _, _, he⟩ := (TsNcdbWriter.readFromBytes_toBytes_iff hm ha rfl).mp hb
    subst he
    cases hs.issuesMeta

end TsDatabase

-- What the TypeScript library reads of the archives of the Python library.

namespace SavedArchive

variable {decode : List UInt8 → List UInt16} {hashText : SchemaHash → String} {s : SavedArchive}

-- An archive as the TypeScript library finds it. `decode` turns the bytes of a member into text; the
-- members that have nothing to do with counts are left open.
def toTs (decode : List UInt8 → List UInt16) (others : TsArchive) (s : SavedArchive) : TsArchive :=
  { others with
    manifest  := some (decode s.manifestBytes)
    strings   := some s.archive.strings
    scopeTree := some (ScopeRecord.encodeAll s.archive.scopeTree)
    counts    := s.archive.counts.map CountsWriter.serialize
    sources   := some s.archive.sources
  }

-- The archive is accepted, and every item has the count that the Python library reads.
def SeenAlike (decode : List UInt8 → List UInt16) (others : TsArchive) (s : SavedArchive) : Prop :=
  ∃ db, TsNcdbReader.readFromBytes (s.toTs decode others) = .ok db ∧
    ∀ db', NcdbReader.read s.archive none = .ok db' →
      TsScope.countsAll db.children = db'.toMemUCIS.coverItems.map fun ci => (ci.data.data : Int)

-- A text whose first byte is a character of ASCII starts with this character.
def KeepsAscii (decode : List UInt8 → List UInt16) : Prop :=
  ∀ b bytes, b < 128 → (decode (b :: bytes)).head? = some b.toUInt16

-- No JSON text starts with the magic number of a manifest.
theorem checkManifest_magic (hd : KeepsAscii decode) (bytes : List UInt8) :
    TsNcdbReader.checkManifest (decode (Manifest.magic ++ bytes)) = .error .syntaxError := by
  have h := hd 0x4E ([0x4D, 0x41, 0x4E] ++ bytes) (by decide)
  have ⟨text, ht⟩ := List.head?_eq_some_iff.mp h
  have hp : Json.parse (decode (Manifest.magic ++ bytes)) = none := by
    refine Option.eq_none_iff_forall_ne_some.mpr fun value hv => ?_
    have hm : decode (Manifest.magic ++ bytes) = 0x4E :: text := ht
    rw [hm] at hv
    exact absurd (Json.starts_of_parse hv) (by decide)
  rw [TsNcdbReader.checkManifest, hp]
  rfl

theorem readFromBytes_magic (hd : KeepsAscii decode) {bytes : List UInt8}
    (h : s.manifestBytes = Manifest.magic ++ bytes) (others : TsArchive) :
    TsNcdbReader.readFromBytes (s.toTs decode others) = .error .syntaxError := by
  have hc := checkManifest_magic hd bytes
  rw [← h] at hc
  exact bind_error_iff.mpr (.inr ⟨_, rfl, bind_error_iff.mpr (.inl hc)⟩)

-- The TypeScript library takes none of the archives that the Python library makes.
theorem seenAlike_never (hd : KeepsAscii decode) (h : Reached hashText s) (others : TsArchive) :
    ¬s.SeenAlike decode others := by
  have ⟨bytes, hm⟩ := h.exists_magic
  intro ⟨db, hr, _⟩
  rw [readFromBytes_magic hd hm others] at hr
  cases hr

-- The archive of a block with one statement that is hit once.

theorem keepsAscii_map : KeepsAscii (List.map UInt8.toUInt16) :=
  fun _ _ _ => rfl

theorem exists_hitBlock : ∃ a bytes, NcdbWriter.write false Archive.hitBlock = .ok a ∧
    a.manifest.serialize (fun _ => "sha256v2:00") { created := "2024-01-01T00:00:00Z" }
      = some bytes :=
  ⟨_, _, rfl, rfl⟩

theorem seenAlike_never_hitBlock : ∃ s : SavedArchive, s.manifestBytes.length ≠ 0 ∧
    ¬s.SeenAlike (List.map UInt8.toUInt16) {} := by
  have ⟨a, bytes, hw, hs⟩ := exists_hitBlock
  refine ⟨⟨a, _, bytes⟩, ?_, seenAlike_never keepsAscii_map (.write hw hs) {}⟩
  have ⟨rest, hm⟩ := exists_serialize_magic hs
  rw [hm]
  exact Nat.succ_ne_zero _

-- The Python library reads its own archive, the TypeScript library does not parse the manifest.
theorem hitBlock_notSeen : ∃ a bytes db, NcdbWriter.write false Archive.hitBlock = .ok a ∧
    a.manifest.serialize (fun _ => "sha256v2:00") { created := "2024-01-01T00:00:00Z" }
      = some bytes ∧
    NcdbReader.read a none = .ok db ∧ db.toMemUCIS.coverItems.map (·.data.data) = [1] ∧
    ¬SeenAlike (List.map UInt8.toUInt16) {} ⟨a, { created := "2024-01-01T00:00:00Z" }, bytes⟩ := by
  have ⟨a, bytes, hw, hs⟩ := exists_hitBlock
  have ⟨rest, hm⟩ := exists_serialize_magic hs
  have ⟨db, hr, hc⟩ : ∃ db, NcdbReader.read a none = .ok db ∧
      db.toMemUCIS.coverItems.map (·.data.data) = [1] := by
    cases hw
    exact ⟨_, rfl, rfl⟩
  refine ⟨a, bytes, db, hw, hs, hr, hc, fun ⟨db', h, _⟩ => ?_⟩
  rw [readFromBytes_magic keepsAscii_map hm {}] at h
  cases h

end SavedArchive
