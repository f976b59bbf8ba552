import PathGlob.Pattern.Handle

/-!
# Cache of patterns

Remembers the handle made for a canonical text and case mode, so that every spelling of a pattern
leads to one handle. Texts that fail leave no trace.
-/
namespace PathGlob

set_option autoImplicit false

structure Cache where
  entries : List ((Text × CaseMode) × Handle) := []
  deriving DecidableEq, Repr

namespace Cache

def find? (cache : Cache) (key : Text × CaseMode) : Option Handle := cache.entries.lookup key

def size (cache : Cache) : Nat := cache.entries.length

def insert (cache : Cache) (key : Text × CaseMode) (handle : Handle) : Cache :=
  ⟨cache.entries ++ [(key, handle)]⟩

/--
The handle for a text: the remembered one, or a new one that is remembered from now on. A new one is
built from the canonical text, which spells the same pattern; if the engine refuses an expression,
the error quotes that text.
-/
def fetch (engine : Engine) (cache : Cache) (text : Text) (mode : CaseMode) :
    Building (Handle × Cache) := do
  let canonical ← Pattern.canonicalText text
  match cache.find? (canonical, mode) with
  | some handle => pure (handle, cache)
  | none =>
    let handle ← Handle.compile engine canonical mode
    pure (handle, cache.insert (canonical, mode) handle)

def clear (_ : Cache) : Cache := {}

end Cache

end PathGlob
