import Covsight.Lib.Dict
import Covsight.Ncdb.TestplanClosure

-- The files of a test plan and how their imports are merged.

-- What a key is substituted by. A value that is no list is kept as the text it is turned into.
inductive SubstValue
  | null
  | list (vs : List String)
  | scalar (v : String)
  deriving DecidableEq, Repr

abbrev Substitutions := Dict String SubstValue

structure RawTestpoint where
  name  : String := ""
  stage : String := ""
  tests : List String := []
  deriving DecidableEq, Repr

structure ImportEntry where
  path          : String := ""
  substitutions : Substitutions := ∅
  deriving DecidableEq

-- A plan as it is parsed from its file. The keys of the imports may be absent.
structure PlanDict where
  name            : String := ""
  substitutions   : Substitutions := ∅
  imports         : Option (List ImportEntry) := none
  importTestplans : Option (List String) := none
  testpoints      : List RawTestpoint := []
  goals           : List (Goal RawTestpoint) := []
  covergroups     : List CovergroupEntry := []

-- The plan files by their absolute paths. A path in an import is resolved against the directory of
-- the importing file.
structure PlanFiles where
  files   : Dict String PlanDict
  resolve : (importer relPath : String) → String

structure ParseError where
  message : String
  path    : String
  deriving DecidableEq, Repr

inductive LoadError
  | parse (e : ParseError)
  | fileNotFound (path : String)
  | recursion
  deriving DecidableEq, Repr

namespace PlanDict

-- The key of OpenTitan plans stands for imports without substitutions.
def normalizeImports (plan : PlanDict) : PlanDict :=
  match plan.importTestplans, plan.imports with
  | some paths, none => { plan with imports := some <| paths.map fun path => { path := path } }
  | _,          _    => plan

-- The substitutions of the import override those of the file itself.
def inherit (plan : PlanDict) (effectiveSubs : Substitutions) : PlanDict :=
  if effectiveSubs.entries.isEmpty then
    plan
  else
    { plan with substitutions := plan.substitutions.update effectiveSubs }

-- `_merge_list` for each of the three lists.
def mergeLists (target source : PlanDict) : PlanDict where
  name            := target.name
  substitutions   := target.substitutions
  imports         := target.imports
  importTestplans := target.importTestplans
  testpoints      := target.testpoints ++ source.testpoints
  goals           := target.goals ++ source.goals
  covergroups     := target.covergroups ++ source.covergroups

def goalTestpoints : Goal RawTestpoint → List RawTestpoint
  | .mk _ testpoints _ => testpoints

-- The names that are compared: those at the top level and those right in a top-level goal.
def checkedNames (plan : PlanDict) : List String :=
  ((plan.testpoints ++ plan.goals.flatMap goalTestpoints).map (·.name)).filter (· ≠ "")

end PlanDict

-- The first name that was seen before.
def firstRepeated : (seen : List String) → List String → Option String
  | _,    []            => none
  | seen, name :: names => if name ∈ seen then some name else firstRepeated (name :: seen) names

def checkNameCollisions (plan : PlanDict) (filePath : String) : Except LoadError Unit :=
  match firstRepeated [] plan.checkedNames with
  | none      => .ok ()
  | some name => .error <| .parse ⟨"duplicate testpoint name: '" ++ name ++ "'", filePath⟩

section Resolution

variable (fs : PlanFiles)

-- The imports of a plan one after the other, merged into it. The files on the path of imports are
-- being visited, those that are merged are resolved.
def importEntries
    (resolveImport : List String → String → PlanDict → Except LoadError (List String × PlanDict))
    (visiting : List String) (parentPath : String) (planSubs : Substitutions) :
    (resolved : List String) → PlanDict → List ImportEntry →
      Except LoadError (List String × PlanDict)
  | resolved, plan, []               => .ok (resolved, plan)
  | resolved, plan, entry :: entries =>
    if entry.path = "" then
      importEntries resolveImport visiting parentPath planSubs resolved plan entries
    else
      let absPath := fs.resolve parentPath entry.path
      if absPath ∈ visiting then
        .error <| .parse ⟨"circular import: '" ++ absPath ++ "' is an ancestor of '" ++ parentPath
          ++ "'", parentPath⟩
      else if absPath ∈ resolved then
        importEntries resolveImport visiting parentPath planSubs resolved plan entries
      else
        match fs.files.get? absPath with
        | none     => .error <| .parse ⟨"imported file not found: " ++ absPath, parentPath⟩
        | some raw => do
          let effectiveSubs := planSubs.update entry.substitutions
          let (resolved, imported) ← resolveImport resolved absPath (raw.inherit effectiveSubs)
          importEntries resolveImport visiting parentPath planSubs (absPath :: resolved)
            (plan.mergeLists imported) entries

-- A file is on the path only while its own imports are resolved. The recursion may go `depth` deep.
def resolveImports :
    (depth : Nat) → (visiting resolved : List String) → (parentPath : String) → PlanDict →
      Except LoadError (List String × PlanDict)
  | 0,         _,        _,        _,          _    => .error .recursion
  | depth + 1, visiting, resolved, parentPath, plan => do
    let visiting := parentPath :: visiting
    let plan := plan.normalizeImports
    let (resolved, plan) ← importEntries fs (resolveImports depth visiting) visiting parentPath
      plan.substitutions resolved plan (plan.imports.getD [])
    checkNameCollisions plan parentPath
    return (resolved, plan)

end Resolution

-- How a test plan is built from its merged files.

section Templates

-- The characters of a key.
variable (isWord : Char → Bool)

-- `re.findall(r'\{(\w+)\}', template)`. No key holds a brace, so the search for the next one may
-- go on right behind the opening brace.
def templateKeys : List Char → List String
  | []      => []
  | c :: cs =>
    let key := cs.takeWhile isWord
    if c = '{' ∧ key ≠ [] ∧ (cs.dropWhile isWord).head? = some '}' then
      String.ofList key :: templateKeys cs
    else
      templateKeys cs

-- `str.replace`, past the characters of the last occurrence.
def replaceFrom (needle replacement : List Char) : (skip : Nat) → List Char → List Char
  | _,        []      => []
  | skip + 1, _ :: cs => replaceFrom needle replacement skip cs
  | 0,        c :: cs =>
    if needle.isPrefixOf (c :: cs) then
      replacement ++ replaceFrom needle replacement (needle.length - 1) cs
    else
      c :: replaceFrom needle replacement 0 cs

def placeholder (key : String) : List Char :=
  '{' :: key.toList ++ ['}']

-- A key without a value stands for itself.
def replacements (subs : Substitutions) (key : String) : List String :=
  match subs.get? key with
  | none | some .null => [String.ofList (placeholder key)]
  | some (.list vs)   => vs
  | some (.scalar v)  => [v]

-- `itertools.product`: the last list varies fastest.
def product : List (List String) → List (List String)
  | []        => [[]]
  | xs :: xss => xs.flatMap fun x => (product xss).map (x :: ·)

def fillTemplate (template : String) (combo : List (String × String)) : String :=
  String.ofList <| combo.foldl
    (fun s (key, replacement) => replaceFrom (placeholder key) replacement.toList 0 s) template.toList

def expandTemplate (template : String) (subs : Substitutions) : List String :=
  match (templateKeys isWord template.toList).eraseDups with
  | []   => [template]
  | keys => (product (keys.map (replacements subs))).map fun combo =>
    fillTemplate template (keys.zip combo)

def buildTestpoint (subs : Substitutions) (raw : RawTestpoint) : Testpoint :=
  if raw.tests = ["N/A"] then
    { name := raw.name, stage := raw.stage, na := true }
  else
    {
      name           := raw.name
      stage          := raw.stage
      tests          := raw.tests.flatMap (expandTemplate isWord · subs)
      sourceTemplate := ", ".intercalate <| raw.tests.filter fun template =>
        let expanded := expandTemplate isWord template subs
        expanded.length > 1 ∨ (expanded ≠ [] ∧ expanded.head? ≠ some template)
    }

-- A template is a source of the names if more than one comes from it, or another one. `none` is an
-- `IndexError`.
def isSource (template : String) (results : List String) : Option Bool :=
  if results.length > 1 then some true else results.head?.map (template ≠ ·)

-- The reader of OpenTitan plans.
def parseTestpoint (subs : Substitutions) (raw : RawTestpoint) : Option Testpoint :=
  if raw.tests = ["N/A"] then
    return { name := raw.name, stage := raw.stage, na := true }
  else do
    let sources ← raw.tests.mapM fun template => do
      return (template, ← isSource template (expandTemplate isWord template subs))
    return {
      name           := raw.name
      stage          := raw.stage
      tests          := raw.tests.flatMap (expandTemplate isWord · subs)
      sourceTemplate := ", ".intercalate <| (sources.filter (·.snd)).map (·.fst)
    }

def buildGoals (subs : Substitutions) : List (Goal RawTestpoint) → List (Goal Testpoint)
  | []                                  => []
  | .mk id testpoints subgoals :: goals =>
    .mk id (testpoints.map (buildTestpoint isWord subs)) (buildGoals subs subgoals) ::
      buildGoals subs goals

def buildPlan (raw : PlanDict) (subs : Substitutions) : ParsedTestplan where
  name        := raw.name
  testpoints  := raw.testpoints.map (buildTestpoint isWord subs)
  goals       := buildGoals isWord subs raw.goals
  covergroups := raw.covergroups

-- The substitutions of the file override those of the caller.
def rootSubstitutions (raw : PlanDict) (substitutions : Substitutions) : Substitutions :=
  if substitutions.entries.isEmpty then
    raw.substitutions
  else
    substitutions.update raw.substitutions

def loadTestplan (fs : PlanFiles) (depth : Nat) (path : String) (substitutions : Substitutions) :
    Except LoadError ParsedTestplan :=
  match fs.files.get? path with
  | none     => .error <| .fileNotFound path
  | some raw => do
    let raw := { raw with substitutions := rootSubstitutions raw substitutions }
    let (_, raw) ← resolveImports fs depth [] [] path raw
    return buildPlan isWord raw raw.substitutions

end Templates
