import PathGlob.Glob
import PathGlob.Glob.Error
import PathGlob.Path

/-!
# Reading globs

Reads the text of a glob from left to right. Each reader returns what it read and the text it left,
or the text left where it had to stop; positions are computed once, at the end, from what was left.
Segments are read as far as they go. Only then is `..` looked for, and only after that is a left
over character reported, so of two faults the one that a reader meets comes first, then `..`, then
the character at which reading ended.
-/
namespace PathGlob

set_option autoImplicit false

namespace Glob

structure Halt where
  rest : Text
  cause : GrammarCause
  deriving DecidableEq, Repr

def isOrdinary (character : Char) : Bool := !isSpecial character

/-- A character of a placeholder's name: an ASCII letter, an ASCII digit or `_`. -/
def isNameCharacter (character : Char) : Bool := character.isAlphanum || character == '_'

def readEnclosed (accepts : Char → Bool) (closing : Char) (lacking : GrammarCause) (text : Text) :
    Except Halt (Text × Text) :=
  match text.takeWhile accepts, text.dropWhile accepts with
  | [], [] => .error ⟨[], .nothingEnclosed⟩
  | [], rest => .error ⟨rest, lacking⟩
  | _, [] => .error ⟨[], .unclosed closing true⟩
  | body, next :: rest =>
    if next = closing then .ok (body, rest) else .error ⟨next :: rest, .unclosed closing false⟩

def readPart? (text : Text) : Except Halt (Option (Part × Text)) :=
  match text with
  | '*' :: '*' :: rest => .error ⟨'*' :: rest, .doubledStar⟩
  | '*' :: rest => .ok (some (.star, rest))
  | '[' :: rest =>
    (readEnclosed isOrdinary ']' .noAlternative rest).map fun (characters, rest) =>
      some (.oneOf characters, rest)
  | '{' :: rest =>
    (readEnclosed isNameCharacter '}' .noName rest).map fun (name, rest) =>
      some (.placeholder name, rest)
  | _ =>
    match text.takeWhile isOrdinary with
    | [] => .ok none
    | run => .ok (some (.literal run, text.dropWhile isOrdinary))

theorem length_dropWhile_le (accepts : Char → Bool) (text : Text) :
    (text.dropWhile accepts).length ≤ text.length :=
  (List.dropWhile_sublist accepts).length_le

theorem length_readEnclosed_lt {accepts : Char → Bool} {closing : Char} {lacking : GrammarCause}
    {text body rest : Text} (read : readEnclosed accepts closing lacking text = .ok (body, rest)) :
    rest.length < text.length := by
  have bound := length_dropWhile_le accepts text
  unfold readEnclosed at read
  cases left : text.dropWhile accepts with
  | nil => cases taken : text.takeWhile accepts <;> simp [left, taken] at read
  | cons next more =>
      simp only [left, List.length_cons] at bound
      cases taken : text.takeWhile accepts with
      | nil => simp [left, taken] at read
      | cons first others =>
          simp only [left, taken] at read
          split at read
          · cases read
            omega
          · cases read

theorem length_readPart_lt {text rest : Text} {part : Part}
    (read : readPart? text = .ok (some (part, rest))) : rest.length < text.length := by
  simp only [readPart?] at read
  split at read
  · cases read
  · cases read
    simp
  · rename_i inner
    cases enclosed : readEnclosed isOrdinary ']' .noAlternative inner with
    | error halt => simp [enclosed, Except.map] at read
    | ok result =>
        simp only [enclosed, Except.map, Except.ok.injEq, Option.some.injEq, Prod.mk.injEq] at read
        have := length_readEnclosed_lt enclosed
        rw [← read.2, List.length_cons]
        omega
  · rename_i inner
    cases enclosed : readEnclosed isNameCharacter '}' .noName inner with
    | error halt => simp [enclosed, Except.map] at read
    | ok result =>
        simp only [enclosed, Except.map, Except.ok.injEq, Option.some.injEq, Prod.mk.injEq] at read
        have := length_readEnclosed_lt enclosed
        rw [← read.2, List.length_cons]
        omega
  · split at read
    · cases read
    · rename_i nonempty
      cases read
      have whole :=
        congrArg List.length (List.takeWhile_append_dropWhile (p := isOrdinary) (l := text))
      have positive : 0 < (text.takeWhile isOrdinary).length :=
        List.length_pos_iff.mpr fun empty => nonempty empty
      rw [List.length_append] at whole
      omega

def readParts (text : Text) : Except Halt (List Part × Text) :=
  match _step : readPart? text with
  | .error halt => .error halt
  | .ok none => .ok ([], text)
  | .ok (some (part, rest)) =>
    (readParts rest).map fun (parts, rest) => (part :: parts, rest)
termination_by text.length
decreasing_by exact length_readPart_lt _step

def segmentEnds (text : Text) : Bool := text.head?.all Path.isSeparator

/-- The component that a text starts with. Every text starts with one, since it may be empty. -/
def readComponent : Text → Except Halt (Component × Text)
  | '*' :: '*' :: rest =>
    if segmentEnds rest then .ok (.globstar, rest) else .error ⟨rest, .joinedGlobstar⟩
  | text => (readParts text).map fun (parts, rest) => (.ofParts parts, rest)

theorem length_readParts_le {text rest : Text} {parts : List Part}
    (read : readParts text = .ok (parts, rest)) : rest.length ≤ text.length := by
  induction found : text.length using Nat.strongRecOn generalizing text rest parts with
  | ind bound ih =>
      rw [readParts] at read
      split at read
      · cases read
      · cases read
        omega
      · rename_i part left step
        have shorter := length_readPart_lt step
        cases more : readParts left with
        | error halt => simp [more, Except.map] at read
        | ok result =>
            have := @ih left.length (by omega) left result.2 result.1 more rfl
            simp only [more, Except.map, Except.ok.injEq, Prod.mk.injEq] at read
            rw [← read.2]
            omega

theorem length_readComponent_le {text rest : Text} {component : Component}
    (read : readComponent text = .ok (component, rest)) : rest.length ≤ text.length := by
  unfold readComponent at read
  split at read
  · split at read
    · cases read
      simp only [List.length_cons]
      omega
    · cases read
  · cases parts : readParts text with
    | error halt => simp [parts, Except.map] at read
    | ok result =>
        simp only [parts, Except.map, Except.ok.injEq, Prod.mk.injEq] at read
        rw [← read.2]
        exact length_readParts_le parts

def readComponents (text : Text) : Except Halt (List Component × Text) :=
  match _step : readComponent text with
  | .error halt => .error halt
  | .ok (component, rest) =>
    match _left : rest with
    | [] => .ok ([component], [])
    | next :: more =>
      if Path.isSeparator next then
        (readComponents more).map fun (components, rest) => (component :: components, rest)
      else .ok ([component], next :: more)
termination_by text.length
decreasing_by
  have := length_readComponent_le _step
  simp only [List.length_cons] at this
  omega

def body (text : Text) : Text := if Path.startsAtRoot text then text.drop 1 else text

def offsetOf (text rest : Text) : Nat := text.byteLength - rest.byteLength

def errorAt (text rest : Text) (cause : GrammarCause) : GrammarError :=
  ⟨offsetOf text rest, offsetOf text rest, cause⟩

def read (text : Text) : Except GrammarError Glob :=
  match readComponents (body text) with
  | .error halt => .error (errorAt text halt.rest halt.cause)
  | .ok (components, rest) =>
    if components.contains (.literal ['.', '.']) then
      .error ⟨0, offsetOf text rest - 1, .parentSegment⟩
    else if rest.isEmpty then .ok ⟨Path.startsAtRoot text, Component.tidy components⟩
    else .error (errorAt text rest .unexpectedSymbol)

/-- The glob that a text spells. A glob without components describes nothing and is rejected. -/
def parse (text : Text) : Except PatternError Glob :=
  match read text with
  | .error error => .error (.malformed text (.grammar error))
  | .ok glob => if glob.components.isEmpty then .error (.malformed text .noSegment) else .ok glob

end Glob

end PathGlob
