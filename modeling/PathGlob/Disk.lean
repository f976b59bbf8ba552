import PathGlob.Path

/-!
# Disks with symbolic links

A disk says what stands at each place, a place being the names on the way to it from the root.
Following a path goes through its names one by one: `.` and empty names stay where they are, `..`
goes one place up, and a symbolic link is replaced by the path it holds. A file can only be the last
name of a path. No more than forty links are followed for one path, so cycles come to an end.
-/
namespace PathGlob

set_option autoImplicit false

inductive Inode where
  | file
  | directory
  | link (target : Text)
  deriving DecidableEq, Repr

abbrev Place := List Text

inductive PathError where
  | notFound
  | notADirectory
  | tooManyLinks
  deriving DecidableEq, Repr

/-- What stands at each place. The root is a directory without being listed. -/
structure Disk where
  inodes : List (Place × Inode) := []
  deriving DecidableEq, Repr

namespace Disk

def inode? (disk : Disk) : Place → Option Inode
  | [] => some .directory
  | place => disk.inodes.lookup place

def names (path : Text) : List Text := path.split (· == '/')

def pathOf (place : Place) : Text := '/' :: Text.joinWith '/' place

def linkLimit : Nat := 40

/-- Follows names from a directory to the place they lead to. -/
def follow (disk : Disk) (links : Nat) (here : Place) : List Text → Except PathError Place
  | [] => .ok here
  | name :: rest =>
    if name = [] ∨ name = ['.'] then disk.follow links here rest
    else if name = ['.', '.'] then disk.follow links here.dropLast rest
    else
      match disk.inode? (here ++ [name]) with
      | none => .error .notFound
      | some .directory => disk.follow links (here ++ [name]) rest
      | some .file => if rest.isEmpty then .ok (here ++ [name]) else .error .notADirectory
      | some (.link target) =>
        match links with
        | 0 => .error .tooManyLinks
        | links + 1 =>
          disk.follow links (if Path.isRooted target then [] else here) (names target ++ rest)
termination_by names => (links, names.length)

def locate (disk : Disk) (path : Text) : Except PathError Place :=
  disk.follow linkLimit [] (names path)

def kind? (disk : Disk) (path : Text) : Option Inode :=
  match disk.locate path with
  | .ok place => disk.inode? place
  | .error _ => none

/-- Puts something at a place, unless it is taken. -/
def put (disk : Disk) (inode : Inode) (place : Place) : Disk :=
  if (disk.inode? place).isSome then disk else ⟨disk.inodes ++ [(place, inode)]⟩

def putDirectory (disk : Disk) (place : Place) : Disk :=
  (List.range place.length).foldl
    (fun disk above => disk.put .directory (place.take (above + 1))) disk

def putBelow (disk : Disk) (inode : Inode) (place : Place) : Disk :=
  (disk.putDirectory place.dropLast).put inode place

def namesIn (disk : Disk) (place : Place) : List Text :=
  (disk.inodes.filterMap fun (other, _) =>
    if other.dropLast = place then other.getLast? else none).mergeSort Text.atMost

end Disk

end PathGlob
