import PathGlob.Regex

/-!
# Engines

An engine takes expressions in their written form and searches for them. It may refuse one, as when
it grows too large, and says why. Which ones are refused is up to the engine; those it takes it
searches for as `Regex.search` says.
-/
namespace PathGlob

set_option autoImplicit false

structure Engine where
  /-- Why a written expression is refused, if it is. -/
  refusal? : Text → Option String

namespace Engine

def lenient : Engine := ⟨fun _ => none⟩

def limited (size : Text → Nat) (bytes : Nat) : Engine where
  refusal? expression :=
    if size expression ≤ bytes then none
    else some ("Compiled regex exceeds size limit of " ++ toString bytes ++ " bytes.")

/-- Why the first of several expressions that is refused is refused. -/
def refusalAmong? (engine : Engine) (expressions : List Regex) : Option String :=
  expressions.findSome? fun expression => engine.refusal? expression.print

end Engine

end PathGlob
