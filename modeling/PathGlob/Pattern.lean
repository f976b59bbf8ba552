import PathGlob.Distinct
import PathGlob.Glob.Reader
import PathGlob.Glob.Regex
import PathGlob.Regex.Engine
import PathGlob.Regex.Search

/-!
# Patterns

A pattern is a choice between branches, written with `;` between them. A branch is a glob without
placeholders and the case mode it is matched in. Branches are identified by canonical text and case
mode. Every way to build a pattern keeps at least one branch, and no two of one identity. A text is
compiled with an engine, and fails if the engine refuses an expression of one of its branches.
-/
namespace PathGlob

set_option autoImplicit false

structure Branch where
  glob : Glob
  mode : CaseMode
  deriving DecidableEq, Repr

namespace Branch

def text (branch : Branch) : Text := branch.glob.text

def rooted (branch : Branch) : Bool := branch.glob.rooted

def identity (branch : Branch) : Text × CaseMode := (branch.text, branch.mode)

def regex (branch : Branch) : Regex := branch.glob.regex branch.mode .silent

def selectors (branch : Branch) : List Selector :=
  Component.selectors branch.mode branch.glob.components

/-- The expressions that an engine is given: those for single names, then the one for full paths. -/
def expressions (branch : Branch) : List Regex :=
  branch.selectors.filterMap Selector.regex? ++ [branch.regex]

def matchesPath (branch : Branch) (path : Text) : Bool :=
  branch.regex.found (branch.glob.subject path)

def parse (text : Text) : Except PatternError Glob := do
  let glob ← Glob.parse text
  match glob.placeholders with
  | [] => pure glob
  | name :: _ => throw (.malformed text (.placeholderInPattern name))

def compile (engine : Engine) (text : Text) (mode : CaseMode) : Except PatternError Branch := do
  let branch : Branch := ⟨← parse text, mode⟩
  match engine.refusalAmong? branch.expressions with
  | some reason => throw (.malformed text (.refused reason))
  | none => pure branch

def distinct (branches : List Branch) : List Branch := distinctBy identity branches

/-- The branch below a directory, read anew from the joined text. A rooted branch stays. -/
def under (engine : Engine) (base : Text) (branch : Branch) : Except PatternError Branch :=
  if branch.rooted then pure branch
  else compile engine (Path.join base branch.text) branch.mode

end Branch

structure Pattern where
  branches : List Branch
  deriving DecidableEq, Repr

namespace Pattern

def ofBranches (branches : List Branch) : Pattern := ⟨Branch.distinct branches⟩

def alternatives (text : Text) : List Text :=
  (text.split (· == ';')).filter (!·.isEmpty)

/-- The pattern that a text spells. The first alternative with a flaw decides the error. -/
def compile (engine : Engine) (text : Text) (mode : CaseMode) : Except PatternError Pattern := do
  match ← (alternatives text).mapM (Branch.compile engine · mode) with
  | [] => throw (.malformed text .empty)
  | branches => pure (ofBranches branches)

def text (pattern : Pattern) : Text := Text.joinWith ';' (pattern.branches.map Branch.text)

/-- The canonical text of the pattern that a text spells, which no engine is asked for. -/
def canonicalText (text : Text) : Except PatternError Text := do
  match ← (alternatives text).mapM Branch.parse with
  | [] => throw (.malformed text .empty)
  | globs => pure (Text.joinWith ';' (distinctBy id (globs.map Glob.text)))

def rooted (pattern : Pattern) : Bool := pattern.branches.all Branch.rooted

def matchesPath (pattern : Pattern) (path : Text) : Bool :=
  pattern.branches.any (·.matchesPath (Path.normalize path))

def identity (pattern : Pattern) : List (Text × CaseMode) := pattern.branches.map Branch.identity

def equal (left right : Pattern) : Bool := left.identity == right.identity

/-- The expression of the whole pattern: a choice between scopes if there are several branches. -/
def regex (pattern : Pattern) : Regex :=
  match pattern.branches with
  | [] => .empty
  | [only] => only.regex
  | first :: rest => choice first rest
where
  choice (first : Branch) : List Branch → Regex
    | [] => .scope first.regex
    | second :: rest => .either (.scope first.regex) (choice second rest)

def anythingText : Text := ['*', '*', '/', '*', '.', '*']

def anything : Pattern :=
  ⟨[⟨⟨false, [.globstar, .compound [.star, .literal ['.'], .star]]⟩, .sensitive⟩]⟩

/-- Whether the pattern takes the place of every combination that it is part of. -/
def absorbing (pattern : Pattern) : Bool := pattern.identity == [(anythingText, .sensitive)]

/--
The pattern below a directory: each relative branch is prefixed with the normalized base. A pattern
without relative branches stays as it is.
-/
def under (engine : Engine) (base : Text) (pattern : Pattern) : Except PatternError Pattern :=
  if pattern.rooted then pure pattern
  else do
    let branches ← pattern.branches.mapM (Branch.under engine (Path.normalize base))
    pure (ofBranches branches)

end Pattern

end PathGlob
