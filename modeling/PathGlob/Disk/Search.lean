import PathGlob.Disk.View
import PathGlob.Template
import PathGlob.Walk

/-!
# Searching a directory of a disk

The shortest way from texts to a walk: the pattern or template is read first, then the directory is
opened, and an error says which of the two failed.
-/
namespace PathGlob

set_option autoImplicit false

inductive SearchError where
  | pattern (error : PatternError)
  | template (error : PatternError)
  | directory (path : Text) (error : PathError)
  deriving DecidableEq, Repr

namespace SearchError

def context : SearchError → String
  | .pattern _ => "Failed to parse provided pattern"
  | .template _ => "Failed to parse provided template"
  | .directory path _ => "Failed to open directory '" ++ String.ofList path ++ "'"

end SearchError

namespace Disk

def openForSearch (disk : Disk) (directory : Text) : Except SearchError DiskView :=
  (DiskView.openAt disk directory).mapError (.directory directory)

/-- A pattern to be walked from a directory, and the view to walk it in. -/
def searchPattern (engine : Engine) (disk : Disk) (text : Text) (mode : CaseMode)
    (directory : Text) : Except SearchError (Pattern × DiskView) := do
  let pattern ← (Pattern.compile engine text mode).mapError .pattern
  pure (pattern, ← disk.openForSearch directory)

def searchTemplate (engine : Engine) (disk : Disk) (text : Text) (directory : Text) :
    Except SearchError (Template × DiskView) := do
  let template ← (Template.compile engine text .sensitive).mapError .template
  pure (template, ← disk.openForSearch directory)

def changeTo (disk : Disk) (path : Text) : Except PathError Text := do
  let place ← disk.locate path
  if disk.inode? place = some .directory then pure (pathOf place) else throw .notADirectory

end Disk

end PathGlob
