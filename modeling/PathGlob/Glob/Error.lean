import PathGlob.Text

/-!
# Reasons for rejecting a text

Why a text is no glob, no pattern or no template. A grammar error says where reading stopped, in
UTF-8 bytes, and what was missing there. The wording of every reason is in this file and nowhere
else.
-/
namespace PathGlob

set_option autoImplicit false

inductive GrammarCause where
  | unexpectedSymbol
  | parentSegment
  | nothingEnclosed
  | noAlternative
  | noName
  /-- A list or name goes on to something else than its closing bracket. -/
  | unclosed (closing : Char) (atEnd : Bool)
  /-- `**` starts a segment that goes on. -/
  | joinedGlobstar
  /-- `**` inside a segment. -/
  | doubledStar
  deriving DecidableEq, Repr

/-- A cause with the bytes it concerns, both ends included. -/
structure GrammarError where
  firstByte : Nat
  lastByte : Nat
  cause : GrammarCause
  deriving DecidableEq, Repr

inductive Flaw where
  | grammar (error : GrammarError)
  | empty
  | noSegment
  | placeholderInPattern (name : Text)
  | digitFirst (name : Text)
  | repeatedPlaceholder (name : Text)
  | refused (reason : String)
  deriving DecidableEq, Repr

inductive PatternError where
  | malformed (text : Text) (flaw : Flaw)
  | emptyCombination
  deriving DecidableEq, Repr

namespace GrammarCause

def expected : GrammarCause → String
  | .unexpectedSymbol => "Custom(\"Unexpected symbol\")"
  | .parentSegment => "Custom(\"Validator failed\")"
  | .nothingEnclosed => "Custom(\"No character left\")"
  | .noAlternative | .noName => "Custom(\"Character filter failed\")"
  | .unclosed closing _ => "Char('" ++ closing.toString ++ "')"
  | .joinedGlobstar => "Custom(\"None of choices matched\")"
  | .doubledStar => "Custom(\"Parser should not have matched\")"

/-- The explanation, which only an unexpected symbol lacks. -/
def explanation? : GrammarCause → Option String
  | .unexpectedSymbol => none
  | .parentSegment => some "Cannot use '..' components in patterns"
  | .nothingEnclosed | .unclosed _ true => some "unexpected end of input"
  | .noAlternative => some "expected at least one character to match"
  | .noName => some "expected a placeholder name made of letters, digits or '_'"
  | .unclosed closing false => some ("expected character '" ++ closing.toString ++ "'")
  | .joinedGlobstar =>
    some "Wildcard components '**' must be preceded and followed by path separators"
  | .doubledStar =>
    some "Wildcard components '**' must be preceded by and followed by a path separator"

end GrammarCause

namespace GrammarError

def message (error : GrammarError) : String :=
  let critical := match error.cause.explanation? with
    | some explanation => "Some(\"" ++ explanation ++ "\")"
    | none => "None"
  "ParsingError \x7b inner: ParsingErrorInner \x7b at: offset " ++
    toString error.firstByte ++ " to "
    ++ toString error.lastByte ++ " @ None, expected: " ++ error.cause.expected
    ++ " \x7d, atomic_error: None, critical: " ++ critical ++ " \x7d"

end GrammarError

namespace Flaw

def quoted (name : Text) : String := "'\x7b" ++ String.ofList name ++ "\x7d'"

def message : Flaw → String
  | .grammar error => error.message
  | .empty => "pattern is empty"
  | .noSegment => "pattern has no path segment"
  | .placeholderInPattern name =>
    "placeholder " ++ quoted name ++ " is only supported in templates"
  | .digitFirst name => "placeholder name " ++ quoted name ++ " cannot start with a digit"
  | .repeatedPlaceholder name => "placeholder " ++ quoted name ++ " is used more than once"
  | .refused reason => reason

end Flaw

namespace PatternError

def message : PatternError → String
  | .malformed text flaw => "malformed pattern '" ++ String.ofList text ++ "': " ++ flaw.message
  | .emptyCombination => "cannot combine an empty set of patterns"

end PatternError

end PathGlob
