import PathGlob.Template
import PathGlob.Walk

/-!
# Enumerating templates

Finds the paths that a template describes by walking its plain glob, and reads the values off each
path found. Paths that only the plain glob describes are dropped; failures are passed on.
-/
namespace PathGlob

set_option autoImplicit false

inductive TemplateFinding where
  | found (found : TemplateMatch)
  | failure (error : ListingError)
  deriving DecidableEq, Repr

namespace Template

def candidates (template : Template) (filesystem : Filesystem) (path : Text) : Walk :=
  .begin template.plain filesystem path

/-- One step of the walk, its path replaced by the match. -/
def step (template : Template) (filesystem : Filesystem) (walk : Walk) :
    Step Walk TemplateFinding :=
  match walk.step filesystem with
  | .over => .over
  | .silent next => .silent next
  | .item (.failure error) next => .item (.failure error) next
  | .item (.path path) next =>
    match template.match? path with
    | some found => .item (.found found) next
    | none => .silent next

end Template

end PathGlob
