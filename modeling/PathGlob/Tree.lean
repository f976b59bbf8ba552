import PathGlob.Filesystem
import PathGlob.Path

/-!
# Trees in memory

A tree of files that is built path by path. It is the list of its entries in the order in which they
were made, and the children of a directory are the entries right below it, in that order. Paths are
resolved against the working directory of the moment. Making an entry makes the directories above it
that are missing; making one that exists changes nothing. Chosen directories can be made unreadable.
-/
namespace PathGlob

set_option autoImplicit false

inductive EntryKind where
  | file
  | directory
  deriving DecidableEq, Repr

structure Entry where
  path : Text
  kind : EntryKind
  deriving DecidableEq, Repr

structure Tree where
  workingDirectory : Text := ['/']
  /-- All entries, in the order in which they were made. The root is there from the start. -/
  entries : List Entry := [⟨['/'], .directory⟩]
  unreadable : List Text := []
  deriving DecidableEq, Repr

namespace Tree

def root : Text := ['/']

def resolve (tree : Tree) (path : Text) : Text := Path.resolve tree.workingDirectory path

def children (tree : Tree) (path : Text) : List Entry :=
  tree.entries.filter fun entry => Path.parent? entry.path == some path

def hasFile (tree : Tree) (path : Text) : Bool := tree.entries.contains ⟨path, .file⟩

/--
Whether a resolved path is that of a directory. What has children is one, however it was made.
-/
def hasDirectory (tree : Tree) (path : Text) : Bool :=
  tree.entries.contains ⟨path, .directory⟩ || !(tree.children path).isEmpty

def has (tree : Tree) (path : Text) : Bool := tree.hasFile path || tree.hasDirectory path

def append (tree : Tree) (entry : Entry) : Tree := { tree with entries := tree.entries ++ [entry] }

/-- Makes directories of a resolved path and of the missing paths above it, the topmost first. -/
def makeDirectories (tree : Tree) (path : Text) : Tree :=
  ((Path.lineage path).takeWhile (!tree.has ·)).reverse.foldl
    (fun tree missing => tree.append ⟨missing, .directory⟩) tree

def addDirectory (tree : Tree) (path : Text) : Tree := tree.makeDirectories (tree.resolve path)

def addFile (tree : Tree) (path : Text) : Tree :=
  let path := tree.resolve path
  if tree.has path then tree
  else
    let settled := match Path.parent? path with
      | some parent => tree.makeDirectories parent
      | none => tree
    settled.append ⟨path, .file⟩

def enter (tree : Tree) (path : Text) : Tree :=
  let path := tree.resolve path
  { tree.addDirectory path with workingDirectory := path }

def forbid (tree : Tree) (path : Text) : Tree :=
  { tree with unreadable := tree.unreadable ++ [tree.resolve path] }

def add (tree : Tree) (path : Text) : Tree :=
  if path.getLast? == some '/' then tree.addDirectory path else tree.addFile path

def ofPaths (paths : List Text) : Tree := paths.foldl add {}

/-- The children of a directory whose paths `keep` selects. What is no directory has none. -/
def list (tree : Tree) (keep : Text → Bool) (path : Text) : Listing :=
  let path := tree.resolve path
  { read := [path]
    outcome :=
      if tree.unreadable.contains path then .error (.unreadable path)
      else .ok (((tree.children path).map Entry.path).filter keep) }

def filesystem (tree : Tree) : Filesystem where
  root := root
  workingDirectory := tree.workingDirectory
  isFile path := tree.hasFile (tree.resolve path)
  isDirectory path := tree.hasDirectory (tree.resolve path)
  files := tree.list tree.hasFile
  directories := tree.list tree.hasDirectory
  entries := tree.list fun _ => true

end Tree

end PathGlob
