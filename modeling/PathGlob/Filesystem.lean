import PathGlob.Text

/-!
# Filesystems as a walk sees them

What a walk may ask of a tree of files: its root and working directory, whether a path is a file or
a directory, and the listings of a directory. A listing also says which directories were read to
answer it, so that the cost of a walk can be observed.
-/
namespace PathGlob

set_option autoImplicit false

inductive ListingError where
  | unreadable (directory : Text)
  | filesUnknown (directory : Text)
  | directoriesUnknown (directory : Text)
  deriving DecidableEq, Repr

namespace ListingError

def message : ListingError → String
  | .unreadable directory => "cannot read directory '" ++ String.ofList directory ++ "'"
  | .filesUnknown directory => "files of '" ++ String.ofList directory ++ "'"
  | .directoriesUnknown directory => "dirs of '" ++ String.ofList directory ++ "'"

end ListingError

structure Listing where
  read : List Text
  outcome : Except ListingError (List Text)

namespace Listing

/-- One listing after the other. The second is only made if the first succeeds. -/
def followedBy (first second : Listing) : Listing :=
  match first.outcome with
  | .error _ => first
  | .ok paths => ⟨first.read ++ second.read, second.outcome.map (paths ++ ·)⟩

def failed (error : ListingError) : Listing := ⟨[], .error error⟩

end Listing

/-- The view of a tree of files that a walk is given. -/
structure Filesystem where
  root : Text
  workingDirectory : Text
  isFile : Text → Bool
  isDirectory : Text → Bool
  files : Text → Listing
  directories : Text → Listing
  entries : Text → Listing

namespace Filesystem

def filesThenDirectories (filesystem : Filesystem) (directory : Text) : Listing :=
  (filesystem.files directory).followedBy (filesystem.directories directory)

def holds (filesystem : Filesystem) (path : Text) : Bool :=
  filesystem.isFile path || filesystem.isDirectory path

end Filesystem

/-- Disturbances of a filesystem: what differs when a walk looks at it through them. -/
structure Disturbance where
  root : Option Text := none
  workingDirectory : Option Text := none
  filesUnknown : List Text := []
  directoriesUnknown : List Text := []
  /-- Whether all entries are told by one undisturbed listing, not files, then directories. -/
  wholeEntries : Bool := false
  deriving DecidableEq, Repr

namespace Filesystem

def disturbed (filesystem : Filesystem) (disturbance : Disturbance) : Filesystem :=
  let partly : Filesystem :=
    { filesystem with
      root := disturbance.root.getD filesystem.root
      workingDirectory := disturbance.workingDirectory.getD filesystem.workingDirectory
      files := fun directory =>
        if disturbance.filesUnknown.contains directory then
          .failed (.filesUnknown directory)
        else filesystem.files directory
      directories := fun directory =>
        if disturbance.directoriesUnknown.contains directory then
          .failed (.directoriesUnknown directory)
        else filesystem.directories directory }
  if disturbance.wholeEntries then partly
  else { partly with entries := partly.filesThenDirectories }

end Filesystem

end PathGlob
