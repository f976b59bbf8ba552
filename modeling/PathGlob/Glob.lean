import PathGlob.Text

/-!
# Globs

A glob is a list of components, one for each segment of the paths it describes, apart from `**`,
which stands for any number of segments. This file holds the components, their canonical form and
their canonical text. Two spellings of one glob, such as `./a//b` and `a/b`, have one canonical
text, which is what patterns are compared by.
-/
namespace PathGlob

set_option autoImplicit false

inductive Part where
  /-- `*`: one or more characters. -/
  | star
  | literal (text : Text)
  | oneOf (characters : Text)
  | placeholder (name : Text)
  deriving DecidableEq, Repr

/-- What one segment has to look like, or a stretch of them. -/
inductive Component where
  | literal (text : Text)
  | compound (parts : List Part)
  /-- `**`: any number of segments. -/
  | globstar
  deriving DecidableEq, Repr

structure Glob where
  rooted : Bool
  components : List Component
  deriving DecidableEq, Repr

/-- Characters that have a meaning in globs and are never part of a literal. -/
def isSpecial (character : Char) : Bool :=
  ['[', ']', '{', '}', '*', '/', '\\', ';'].contains character

namespace Part

def name? : Part → Option Text
  | .placeholder name => some name
  | _ => none

def anonymous : Part → Part
  | .placeholder _ => .star
  | part => part

def merge : List Part → List Part
  | .star :: .star :: rest => merge (.star :: rest)
  | part :: rest => part :: merge rest
  | [] => []

def print : Part → Text
  | .star => ['*']
  | .literal text => text
  | .oneOf characters => '[' :: characters ++ [']']
  | .placeholder name => '{' :: name ++ ['}']

end Part

namespace Component

/--
The component of a segment with the given parts. Characters alone make a literal, as does nothing.
-/
def ofParts : List Part → Component
  | [] => .literal []
  | [.literal text] => .literal text
  | parts => .compound parts

def parts : Component → List Part
  | .compound parts => parts
  | _ => []

/-- The component with every placeholder and every run of `*` written as one `*`. -/
def anonymous : Component → Component
  | .compound parts => .compound (Part.merge (parts.map Part.anonymous))
  | component => component

def print : Component → Text
  | .literal text => text
  | .compound parts => parts.flatMap Part.print
  | .globstar => ['*', '*']

/-- Whether the component stands for no segment at all: an empty or `.` literal. -/
def isIdle (component : Component) : Bool :=
  component == .literal [] || component == .literal ['.']

def merge : List Component → List Component
  | .globstar :: .globstar :: rest => merge (.globstar :: rest)
  | component :: rest => component :: merge rest
  | [] => []

def tidy (components : List Component) : List Component :=
  merge (components.filter (!·.isIdle))

end Component

namespace Glob

def placeholders (glob : Glob) : List Text :=
  (glob.components.flatMap Component.parts).filterMap Part.name?

def anonymous (glob : Glob) : Glob :=
  { glob with components := glob.components.map Component.anonymous }

def print (glob : Glob) : Text :=
  (if glob.rooted then ['/'] else []) ++ Text.joinWith '/' (glob.components.map Component.print)

def text (glob : Glob) : Text := glob.anonymous.print

end Glob

end PathGlob
