import PathGlob.Filesystem
import PathGlob.Pattern
import PathGlob.Stream

/-!
# Walks

Finds the entries that a pattern describes, without looking where it cannot match. Each branch has
a trail of its own: relative branches start from the starting directory, rooted ones from the root.
A trail goes from stop to stop, a stop being a directory with the number of the component to match
inside it. Names that are written out are looked up and their directory is not listed; other names
are compared with the entries of a listing; `**` leads into every directory. Whatever is found is
checked against the expression of the branch for the full path, and no path is handed out twice.
-/
namespace PathGlob

set_option autoImplicit false

/-- A directory with the number of the component to match inside it. -/
structure Stop where
  directory : Text
  index : Nat
  deriving DecidableEq, Repr

structure Trail where
  branch : Branch
  ahead : List Stop
  finds : List Text := []
  behind : List Stop := []
  deriving DecidableEq, Repr

structure Visit where
  trail : Trail
  read : List Text := []
  failure : Option ListingError := none

namespace Trail

def start (branch : Branch) (base : Text) : Trail := { branch, ahead := [⟨base, 0⟩] }

def isLast (trail : Trail) (index : Nat) : Bool := index + 1 == trail.branch.selectors.length

def goTo (trail : Trail) (stops : List Stop) : Trail := { trail with ahead := stops ++ trail.ahead }

def find (trail : Trail) (paths : List Text) : Trail := { trail with finds := trail.finds ++ paths }

def afterListing (trail : Trail) (listing : Listing) (go : List Text → Visit) : Visit :=
  match listing.outcome with
  | .error failure => { trail, read := listing.read, failure := some failure }
  | .ok paths =>
    let visit := go paths
    { visit with read := listing.read ++ visit.read }

def lookUp (trail : Trail) (filesystem : Filesystem) (stop : Stop) (name : Text) : Visit :=
  let path := Path.join stop.directory name
  if trail.isLast stop.index then
    { trail := if filesystem.holds path then trail.find [path] else trail }
  else
    { trail := if filesystem.isDirectory path then trail.goTo [⟨path, stop.index + 1⟩] else trail }

def compare (trail : Trail) (filesystem : Filesystem) (stop : Stop) (regex : Regex) : Visit :=
  let fits (path : Text) : Bool := regex.found (Path.fileName path)
  if trail.isLast stop.index then
    trail.afterListing (filesystem.entries stop.directory) fun paths =>
      { trail := trail.find (paths.filter fits) }
  else
    trail.afterListing (filesystem.directories stop.directory) fun paths =>
      { trail := trail.goTo ((paths.filter fits).map fun path => ⟨path, stop.index + 1⟩) }

/--
Takes every directory inside a directory, after the directory itself for the next component. At the
last component the entries are found first, and they stay found if the second listing fails.
-/
def descend (trail : Trail) (filesystem : Filesystem) (stop : Stop) : Visit :=
  let inside (path : Text) : Stop := ⟨path, stop.index⟩
  if trail.isLast stop.index then
    trail.afterListing (filesystem.entries stop.directory) fun entries =>
      let trail := trail.find entries
      trail.afterListing (filesystem.directories stop.directory) fun directories =>
        { trail := trail.goTo (directories.map inside) }
  else
    trail.afterListing (filesystem.directories stop.directory) fun directories =>
      { trail := trail.goTo (⟨stop.directory, stop.index + 1⟩ :: directories.map inside) }

def visit (trail : Trail) (filesystem : Filesystem) (stop : Stop) : Visit :=
  if trail.behind.contains stop then { trail }
  else
    let trail : Trail := { trail with behind := stop :: trail.behind }
    match (trail.branch.selectors[stop.index]? : Option Selector) with
    | none => { trail }
    | some (.exactly name) => trail.lookUp filesystem stop name
    | some (.named regex) => trail.compare filesystem stop regex
    | some .everywhere => trail.descend filesystem stop

end Trail

inductive Finding where
  | path (path : Text)
  | failure (error : ListingError)
  deriving DecidableEq, Repr

structure Walk where
  pattern : Pattern
  start : Text
  waiting : List Branch
  trail : Option Trail := none
  handedOut : List Text := []
  read : List Text := []
  deriving DecidableEq, Repr

namespace Walk

/--
Where a walk starts. The empty path means the working directory, which relative ones are below.
-/
def startIn (filesystem : Filesystem) (path : Text) : Text :=
  let workingDirectory := Path.normalize filesystem.workingDirectory
  if (Path.normalize path).isEmpty then workingDirectory else Path.resolve workingDirectory path

def begin (pattern : Pattern) (filesystem : Filesystem) (path : Text) : Walk :=
  { pattern, start := startIn filesystem path, waiting := pattern.branches }

def base (walk : Walk) (filesystem : Filesystem) (branch : Branch) : Text :=
  if branch.rooted then Path.normalize filesystem.root else walk.start

/--
One step: a find is handed out or dropped; failing that, a stop is made; failing that, the next
branch begins.
-/
def step (filesystem : Filesystem) (walk : Walk) : Step Walk Finding :=
  match walk.trail with
  | none =>
    match walk.waiting with
    | [] => .over
    | branch :: waiting =>
      .silent { walk with waiting, trail := some (.start branch (walk.base filesystem branch)) }
  | some trail =>
    match trail.finds, trail.ahead with
    | path :: finds, _ =>
      let walk := { walk with trail := some { trail with finds } }
      if trail.branch.matchesPath path && !walk.handedOut.contains path then
        .item (.path path) { walk with handedOut := path :: walk.handedOut }
      else .silent walk
    | [], stop :: ahead =>
      let visit := { trail with ahead }.visit filesystem stop
      let walk := { walk with trail := some visit.trail, read := walk.read ++ visit.read }
      match visit.failure with
      | some failure => .item (.failure failure) walk
      | none => .silent walk
    | [], [] => .silent { walk with trail := none }

end Walk

end PathGlob
