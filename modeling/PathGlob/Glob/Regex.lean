import PathGlob.CaseFold
import PathGlob.Glob
import PathGlob.Path
import PathGlob.Regex

/-!
# Regular expressions of globs

The expression that full paths are searched for, and the expression that a walk compares a single
entry name with. A rooted glob is anchored at both ends, a relative one at the end only; since every
segment is preceded by a separator, a relative glob still starts at a segment boundary. `**` takes
the separator that follows each of its segments, and is not preceded by one where it opens a
relative glob.
-/
namespace PathGlob

set_option autoImplicit false

/-- Whether placeholders report what they take. -/
inductive Reporting where
  | named
  | silent
  deriving DecidableEq, Repr

namespace Regex

def anyCharacters : Regex := .fewest .inSegment

def anyDirectories : Regex := .many (.group (.sequence (.most .inSegment) (.character '/')))

def wholeSegment : Regex := .most .inSegment

def optionalSuffix : Regex := .optional (.group (.sequence (.character '.') (.many .inSegment)))

def underCase : CaseMode → Regex → Regex
  | .sensitive, regex => regex
  | .insensitive, regex => .foldCase regex

end Regex

namespace Part

def regex (reporting : Reporting) : Part → Regex
  | .star => Regex.anyCharacters
  | .literal text => Regex.literal text
  | .oneOf characters => .group (Regex.oneOf characters)
  | .placeholder name =>
    match reporting with
    | .named => .named name Regex.anyCharacters
    | .silent => Regex.anyCharacters

/--
Splits parts that end with a dot and `*`: those before the literal with the dot, and what that
literal has in front of the dot.
-/
def dotStar? : List Part → Option (List Part × Text)
  | [.literal text, .star] =>
    if text.getLast? = some '.' then some ([], text.dropLast) else none
  | part :: rest => (dotStar? rest).map fun (before, stem) => (part :: before, stem)
  | [] => none

end Part

namespace Component

/--
The expression of the parts of one segment. In the last segment a final dot and `*` are optional
together, so `a.*` also takes `a`.
-/
def partsRegex (reporting : Reporting) (isLast : Bool) (parts : List Part) : Regex :=
  match if isLast then Part.dotStar? parts else none with
  | some (before, stem) =>
    Regex.concat
      (before.map (Part.regex reporting) ++ [Regex.literal stem, Regex.optionalSuffix])
  | none => Regex.concat (parts.map (Part.regex reporting))

def nameRegex (mode : CaseMode) (isLast : Bool) (parts : List Part) : Regex :=
  Regex.underCase mode
    (Regex.concat [.textStart, partsRegex .silent isLast parts, .textEnd])

end Component

inductive Selector where
  | exactly (name : Text)
  | named (regex : Regex)
  | everywhere
  deriving DecidableEq, Repr

def Selector.regex? : Selector → Option Regex
  | .named regex => some regex
  | _ => none

namespace Component

/-- The selector of a component. A literal is only looked up if its case matters. -/
def selector (mode : CaseMode) (isLast : Bool) : Component → Selector
  | .literal name =>
    match mode with
    | .sensitive => .exactly name
    | .insensitive => .named (nameRegex mode isLast [.literal name])
  | .compound parts => .named (nameRegex mode isLast parts)
  | .globstar => .everywhere

def selectors (mode : CaseMode) : List Component → List Selector
  | [] => []
  | component :: rest => component.selector mode rest.isEmpty :: selectors mode rest

end Component

namespace Glob

def separatorIf (due : Bool) : List Regex := if due then [.character '/'] else []

/--
The expressions of the components. `due` says that the next segment needs a separator in front, and
`opening` that the next component opens a relative glob.
-/
def componentRegexes (reporting : Reporting) (due opening : Bool) : List Component → List Regex
  | [] => []
  | component :: rest =>
    match component with
    | .globstar =>
      separatorIf (due && !opening) ++ Regex.anyDirectories
        :: (if rest.isEmpty then [Regex.wholeSegment] else [])
        ++ componentRegexes reporting opening false rest
    | .literal text =>
      separatorIf due ++ Regex.literal text :: componentRegexes reporting true false rest
    | .compound parts =>
      separatorIf due ++ Component.partsRegex reporting rest.isEmpty parts
        :: componentRegexes reporting true false rest

def regex (mode : CaseMode) (reporting : Reporting) (glob : Glob) : Regex :=
  Regex.underCase mode <| Regex.concat <|
    (if glob.rooted then [.textStart] else [])
      ++ componentRegexes reporting true (!glob.rooted) glob.components ++ [.textEnd]

/-- The text that the expression is searched in: relative paths get a separator in front. -/
def subject (glob : Glob) (path : Text) : Text :=
  if glob.rooted || Path.isRooted path then path else '/' :: path

end Glob

end PathGlob
