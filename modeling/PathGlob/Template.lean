import PathGlob.Pattern

/-!
# Templates

A template is a glob whose placeholders report what they take. It is matched by an expression with
one named group for each placeholder, and enumerated through the plain glob that has `*` in their
place.
-/
namespace PathGlob

set_option autoImplicit false

structure Template where
  text : Text
  glob : Glob
  mode : CaseMode
  plain : Pattern
  deriving DecidableEq, Repr

structure TemplateMatch where
  path : Text
  values : List (Text × Text)
  deriving DecidableEq, Repr

def TemplateMatch.get? (found : TemplateMatch) (name : Text) : Option Text :=
  found.values.lookup name

namespace Template

/--
What is wrong with the first name that is wrong: it starts with a digit, or, failing that, it was
used before.
-/
def nameFlaw? (seen : List Text) : List Text → Option Flaw
  | [] => none
  | name :: rest =>
    if name.head?.any Char.isDigit then some (.digitFirst name)
    else if seen.contains name then some (.repeatedPlaceholder name)
    else nameFlaw? (name :: seen) rest

/-- What is wrong with a glob as that of a template: a name, or, failing that, the expression. -/
def flaw? (engine : Engine) (glob : Glob) (mode : CaseMode) : Option Flaw :=
  (nameFlaw? [] glob.placeholders).or
    ((engine.refusal? (glob.regex mode .named).print).map .refused)

def compile (engine : Engine) (text : Text) (mode : CaseMode) : Except PatternError Template := do
  let glob ← Glob.parse text
  match flaw? engine glob mode with
  | some flaw => throw (.malformed text flaw)
  | none => pure ⟨text, glob, mode, ← Pattern.compile engine glob.text mode⟩

def names (template : Template) : List Text := template.glob.placeholders

def regex (template : Template) : Regex := template.glob.regex template.mode .named

/-- The match of a path, normalized first, with the values in the order of the placeholders. -/
def match? (template : Template) (path : Text) : Option TemplateMatch := do
  let path := Path.normalize path
  let captures ← template.regex.search (template.glob.subject path)
  some ⟨path, template.names.filterMap fun name => (captures.lookup name).map (name, ·)⟩

end Template

end PathGlob
