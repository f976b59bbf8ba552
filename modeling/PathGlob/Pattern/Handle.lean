import PathGlob.Pattern

/-!
# Shared patterns

A handle is a pattern with a mark that tells it from every other pattern built before or after.
Copies of a handle carry its mark, so comparing marks tells whether two handles stand for the very
same pattern, while `Pattern.equal` compares what they describe. Marks come from a supply that
never gives one out twice; the mark of the pattern that describes every entry is set aside.
-/
namespace PathGlob

set_option autoImplicit false

structure Handle where
  mark : Nat
  pattern : Pattern
  deriving DecidableEq, Repr

/-- The marks not yet given out: `next` and all above. -/
structure Supply where
  next : Nat := 1
  deriving DecidableEq, Repr

/-- A construction that may fail and may use up marks. A failed one uses none. -/
abbrev Building := StateT Supply (Except PatternError)

namespace Handle

def anything : Handle := ⟨0, Pattern.anything⟩

def same (left right : Handle) : Bool := left.mark == right.mark

def equal (left right : Handle) : Bool := left.pattern.equal right.pattern

def issue (pattern : Pattern) : Building Handle := do
  let supply ← get
  set { supply with next := supply.next + 1 }
  pure ⟨supply.next, pattern⟩

def compile (engine : Engine) (text : Text) (mode : CaseMode) : Building Handle := do
  issue (← Pattern.compile engine text mode)

/--
The pattern below a directory. A pattern without relative branches is handed back itself, with its
mark.
-/
def under (engine : Engine) (base : Text) (handle : Handle) : Building Handle :=
  if handle.pattern.rooted then pure handle
  else do issue (← handle.pattern.under engine base)

def distinct (handles : List Handle) : List Handle := distinctBy (·.pattern.identity) handles

/--
The union of patterns, absent ones left out. The first absorbing pattern is handed back itself, and
so is a pattern that all others are equal to; else a new pattern is made of all branches in order.
-/
def combine (entries : List (Option Handle)) : Building Handle :=
  let present := entries.filterMap id
  match present.find? (·.pattern.absorbing) with
  | some absorbing => pure absorbing
  | none =>
    match distinct present with
    | [] => throw .emptyCombination
    | [only] => pure only
    | handles => issue (.ofBranches (handles.flatMap (·.pattern.branches)))

end Handle

end PathGlob
