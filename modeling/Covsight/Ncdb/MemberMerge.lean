import Covsight.Ncdb.Archive

-- Merging the members that can differ between archives of one schema.

-- The keys of a dictionary in ascending order.
def sortedKeys {α : Type*} (d : Dict Nat α) : List Nat :=
  d.keys.insertionSort (· ≤ ·)

-- The flags of an item are joined.
def mergeCoveritemFlags (payloads : List CoveritemFlags) : Option CoveritemFlags :=
  let merged := payloads.foldl (fun merged flags =>
    flags.entries.foldl (fun merged (index, f) =>
      merged.set index ((merged.get? index).getD 0 ||| f)) merged) (∅ : CoveritemFlags)
  if merged.entries.isEmpty then
    none
  else
    some <| Dict.ofList <| (sortedKeys merged).filterMap fun index =>
      (merged.get? index).map (index, ·)

-- The formal statuses by number.
def formalNone : Nat := 0
def formalFailure : Nat := 1
def formalProof : Nat := 2
def formalVacuous : Nat := 3
def formalInconclusive : Nat := 4
def formalAssumption : Nat := 5
def formalConflict : Nat := 6

-- How informative a status is; a number that is no status tells nothing.
def formalStatusRank (status : Nat) : Nat :=
  if status = formalAssumption then 1
  else if status = formalVacuous then 2
  else if status = formalInconclusive then 3
  else if status = formalProof then 4
  else if status = formalFailure then 5
  else if status = formalConflict then 6
  else 0

-- A proof and a failure contradict each other; otherwise the most informative status wins.
def mergeFormalStatuses (statuses : List Nat) : Nat :=
  let known := statuses.filter fun s => s ≠ formalNone ∧ s ≤ formalConflict
  if formalProof ∈ known ∧ formalFailure ∈ known then
    formalConflict
  else
    known.foldl (fun best s => if formalStatusRank best < formalStatusRank s then s else best)
      formalNone

-- The witness of a conflict is the first there is, otherwise that of the first result with the
-- status that won.
def mergedWitness (found : List FormalData) (status : Nat) : Option String :=
  if status = formalConflict then
    (found.filterMap (·.witness)).find? (· ≠ "")
  else
    (found.find? (·.status.getD formalNone = status)).bind (·.witness)

def mergeFormalData (found : List FormalData) : FormalData :=
  let status := mergeFormalStatuses <| found.map (·.status.getD formalNone)
  let radius := (found.map (·.radius.getD 0)).foldr max 0
  FormalResults.normalize ⟨some status, some radius, mergedWitness found status⟩

def mergeFormal (payloads : List FormalResults) : Option FormalResults :=
  let indices := ((payloads.flatMap (·.keys)).dedup).insertionSort (· ≤ ·)
  let entries := indices.filterMap fun index =>
    let fd := mergeFormalData <| payloads.filterMap (·.get? index)
    if fd = {} then none else some (index, fd)
  if entries.isEmpty then none else some (Dict.ofList entries)

def mergeTags (payloads : List Tags) : Option Tags :=
  let indices := ((payloads.flatten.map Prod.fst).dedup).insertionSort (· ≤ ·)
  let entries := indices.filterMap fun index =>
    let tags := (payloads.flatten.filter (·.fst = index)).flatMap Prod.snd
    if tags.isEmpty then none else some (index, tags.dedup.insertionSort (· ≤ ·))
  if entries.isEmpty then none else some entries

-- The first source that sets a key wins.
def mergeInto (target incoming : Dict String String) : Dict String String :=
  incoming.entries.foldl (fun target (key, value) =>
    if key ∈ target then target else target.set key value) target

def mergeEntries {κ : Type} [DecidableEq κ] (target : Dict κ (Dict String String))
    (entries : List (κ × Dict String String)) : Dict κ (Dict String String) :=
  entries.foldl (fun target (key, attrs) =>
    target.set key <| mergeInto ((target.get? key).getD ∅) attrs) target

-- The node of a history entry is told by its position only.
def mergeAttrs (payloads : List Attrs) : Option Attrs :=
  let nonempty {κ : Type} (d : Dict κ (Dict String String)) : List (κ × Dict String String) :=
    d.entries.filter fun e => ¬e.snd.entries.isEmpty
  let scopes := payloads.foldl (fun d a => mergeEntries d a.scopes) ∅
  let coveritems := payloads.foldl (fun d a => mergeEntries d a.coveritems) ∅
  let history := payloads.foldl (fun d a =>
    mergeEntries d (a.history.map fun e => (e.fst.snd, e.snd))) ∅
  let global := payloads.foldl (fun d a => mergeInto d a.global) ∅
  if scopes.entries.isEmpty ∧ coveritems.entries.isEmpty ∧ history.entries.isEmpty ∧
      global.entries.isEmpty then
    none
  else
    some {
      scopes     := (nonempty scopes).insertionSort (·.fst ≤ ·.fst)
      coveritems := (nonempty coveritems).insertionSort fun a b =>
        a.fst.fst < b.fst.fst ∨ a.fst.fst = b.fst.fst ∧ a.fst.snd ≤ b.fst.snd
      history    := ((nonempty history).insertionSort (·.fst ≤ ·.fst)).map fun e =>
        ((none, e.fst), e.snd)
      global     := global
    }

-- Combines a member across the sources that carry it. Identical members are kept as they are.
def mergeAnnotational {α : Type*} [DecidableEq α] (merge : List α → Option α) :
    List α → Option α
  | []            => none
  | first :: rest => if rest.all (· = first) then some first else merge (first :: rest)

-- Contributions are keyed by the position of a history node, so those of a source are moved by
-- where its nodes start in the merged history.
def renumberContrib (perSource : List (Contributions × Nat)) : Contributions :=
  perSource.foldl (fun out (members, offset) =>
    members.entries.foldl (fun out (index, binCounts) =>
      out.set (index + offset) binCounts) out) ∅
