import PathGlob.Text

/-!
# Paths

A path is a text with `/` between its segments. Input may also use `\`, repeat separators or hold
`.` segments; `normalize` removes all three and keeps a leading separator, the mark of a rooted
path. Nothing here resolves `..`: a path is a text, not a place.
-/
namespace PathGlob.Path

set_option autoImplicit false

/-- Both separators that input may use. Output only has `/`. -/
def isSeparator (character : Char) : Bool := character == '/' || character == '\\'

def startsAtRoot (path : Text) : Bool := path.head?.any isSeparator

/-- The named segments: what stands between separators, without empty and `.` pieces. -/
def segments (path : Text) : List Text :=
  (path.split isSeparator).filter fun piece => piece ≠ [] && piece ≠ ['.']

/-- The path with `/` as its only separator, no `.` or empty segment and no trailing separator. -/
def normalize (path : Text) : Text :=
  (if startsAtRoot path then ['/'] else []) ++ Text.joinWith '/' (segments path)

def isRooted (path : Text) : Bool := path.head? == some '/'

/--
A name below a directory, with one separator between them. Separators in front of the name are
dropped, and nothing is put in front of it when the directory is the empty text.
-/
def join (directory name : Text) : Text :=
  let name := name.dropWhile (· == '/')
  if directory.isEmpty then name
  else if directory.getLast? == some '/' then directory ++ name
  else directory ++ '/' :: name

def resolve (base path : Text) : Text :=
  let path := normalize path
  if isRooted path then path else join base path

def fileName (path : Text) : Text := (path.reverse.takeWhile (· != '/')).reverse

def parent? (path : Text) : Option Text :=
  match path.reverse.dropWhile (· != '/') with
  | [] => none
  | [_] => if path.length = 1 then none else some ['/']
  | _ :: before => some before.reverse

theorem length_parent_lt {path parent : Text} (found : parent? path = some parent) :
    parent.length < path.length := by
  have bound : (path.reverse.dropWhile (· != '/')).length ≤ path.length := by
    simpa using (List.dropWhile_sublist (· != '/') (l := path.reverse)).length_le
  simp only [parent?] at found
  split at found
  · cases found
  · rename_i only same
    rw [same] at bound
    split at found
    · cases found
    · cases found
      simp only [List.length_singleton] at bound ⊢
      omega
  · rename_i slash before _ same
    cases found
    rw [same] at bound
    simp only [List.length_cons] at bound
    simp only [List.length_reverse]
    omega

def lineage (path : Text) : List Text :=
  match _above : parent? path with
  | none => [path]
  | some parent => path :: lineage parent
termination_by path.length
decreasing_by exact length_parent_lt _above

end PathGlob.Path
