import Mathlib.Tactic.Common
import Covsight.Lib.Regex

-- What an archive holds of the project around the coverage data: the test plan, the waivers and the
-- issues.

-- A test plan. Everything but the fields that tell where it comes from is kept as stored.
structure Testplan where
  sourceFile      : String
  importTimestamp : String
  content         : String
  deriving DecidableEq, Repr

structure Waiver where
  id           : String
  scopePattern : String
  binPattern   : String := "*"
  rationale    : String := ""
  approver     : String := ""
  approvedAt   : String := ""
  expiresAt    : String := ""
  status       : String := "active"
  deriving DecidableEq, Repr

abbrev WaiverSet := List Waiver

structure Issue where
  id         : String
  ext        : String := ""
  severity   : Nat := 2
  kind       : Nat := 0
  state      : Nat := 0
  resolution : Nat := 0
  createdAt  : Nat := 0
  updatedAt  : Nat := 0
  syncedAt   : Nat := 0
  deriving DecidableEq, Repr

structure WaiverIssueLink where
  waiverId : String
  issueId  : String
  deriving DecidableEq, Repr

structure TestpointIssueLink where
  testpointName : String
  issueId       : String
  linkType      : Nat := 0
  deriving DecidableEq, Repr

structure CoverageIssueLink where
  scopePath : String
  binName   : String
  issueId   : String
  linkType  : Nat := 0
  deriving DecidableEq, Repr

-- The issues with their link tables.
structure IssueSet where
  issues         : List Issue := []
  waiverLinks    : List WaiverIssueLink := []
  testpointLinks : List TestpointIssueLink := []
  coverageLinks  : List CoverageIssueLink := []
  deriving DecidableEq, Repr

structure IssueMeta where
  title : String := ""
  url   : String := ""
  deriving DecidableEq, Repr

-- The display data of the issues, by position in the issue set.
abbrev IssuesMeta := List (Option IssueMeta)

structure IssueStateTransition where
  issueId  : String
  ts       : Nat
  newState : Nat
  comment  : String := ""
  deriving DecidableEq, Repr

abbrev IssuesHistory := List IssueStateTransition

-- Which scopes and bins a waiver is for.

namespace Glob

-- `.*`, where a dot is not a line break.
def anyText : Regex Char :=
  .star <| .letter (· ≠ '\n')

-- `(?:.+/)?`
def anyDirs : Regex Char :=
  .alt (.cat (.cat (.letter (· ≠ '\n')) anyText) (.letter (· = '/'))) .empty

-- `[^/]*`
def anyName : Regex Char :=
  .star <| .letter (· ≠ '/')

-- The pieces of the regular expression, from left to right.
def pieces : List Char → List (Regex Char)
  | '*' :: '*' :: '/' :: cs => anyDirs :: pieces cs
  | '*' :: '*' :: cs        => anyText :: pieces cs
  | '*' :: cs               => anyName :: pieces cs
  | c :: cs                 => .letter (· = c) :: pieces cs
  | []                      => []

end Glob

def globToRegex (pattern : String) : Regex Char :=
  .seq <| Glob.pieces pattern.toList

def globMatch (pattern text : String) : Bool :=
  (globToRegex pattern).fullmatch text.toList

-- No bin stands for the scope as a whole.
def Waiver.matches (w : Waiver) (scopePath : String) (binName : String := "") : Bool :=
  if globMatch w.scopePattern scopePath then
    if binName ≠ "" ∧ w.binPattern ≠ "*" then globMatch w.binPattern binName else true
  else
    false

def WaiverSet.matchesScope (ws : WaiverSet) (scopePath : String) (binName : String := "") : Bool :=
  ws.any (·.matches scopePath binName)
