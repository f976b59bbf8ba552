import PathGlob.Disk
import PathGlob.Filesystem

/-!
# Views of a disk

A disk as a walk sees it from a working directory. Links are followed, entries come in the order of
their names, and a path that is no directory has no entries. Listing everything includes links that
lead nowhere; files and directories are told apart by what links lead to.
-/
namespace PathGlob

set_option autoImplicit false

structure DiskView where
  disk : Disk
  workingDirectory : Text
  deriving DecidableEq, Repr

namespace DiskView

/-- A view from a directory, or from a file, with the links on the way resolved. -/
def openAt (disk : Disk) (path : Text) : Except PathError DiskView := do
  pure ⟨disk, Disk.pathOf (← disk.locate path)⟩

def resolve (view : DiskView) (path : Text) : Text := Path.resolve view.workingDirectory path

def list (view : DiskView) (keep : Option Inode → Bool) (path : Text) : Listing :=
  let path := view.resolve path
  { read := [path]
    outcome := .ok <|
      match view.disk.locate path with
      | .error _ => []
      | .ok place =>
        if view.disk.inode? place = some .directory then
          ((view.disk.namesIn place).filter fun name =>
            keep (view.disk.kind? (Path.join path name))).map (Path.join path)
        else [] }

def filesystem (view : DiskView) : Filesystem where
  root := ['/']
  workingDirectory := view.workingDirectory
  isFile path := view.disk.kind? (view.resolve path) == some .file
  isDirectory path := view.disk.kind? (view.resolve path) == some .directory
  files := view.list (· == some .file)
  directories := view.list (· == some .directory)
  entries := view.list fun _ => true

end DiskView

end PathGlob
