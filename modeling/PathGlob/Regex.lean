import PathGlob.Text

/-!
# Regular expressions

The regular expressions that patterns stand for, with their written form. Only the constructs that
globs need are present: literal characters, one character of a path segment, sequence, choice, a
greedy optional part, greedy and lazy repetition, groups, the two ends of the text and matching
without regard to case.
-/
namespace PathGlob

set_option autoImplicit false

inductive Regex where
  | empty
  | character (literal : Char)
  /-- Any character that is neither a separator nor a colon. -/
  | inSegment
  | sequence (first second : Regex)
  | either (first second : Regex)
  | optional (body : Regex)
  /-- The body any number of times, as often as possible. -/
  | many (body : Regex)
  /-- The body at least once, as often as possible. -/
  | most (body : Regex)
  /-- The body at least once, as rarely as possible. -/
  | fewest (body : Regex)
  | group (body : Regex)
  | named (name : Text) (body : Regex)
  | scope (body : Regex)
  | foldCase (body : Regex)
  | textStart
  | textEnd
  deriving DecidableEq, Repr

namespace Regex

def concat (parts : List Regex) : Regex := parts.foldl .sequence .empty

def literal (text : Text) : Regex := concat (text.map .character)

def oneOf : Text → Regex
  | [] => .empty
  | [only] => .character only
  | first :: rest => .either (.character first) (oneOf rest)

/-- Characters that the written form has to escape, since it gives them a meaning. -/
def isMeta (character : Char) : Bool :=
  ['\\', '.', '+', '*', '?', '(', ')', '|', '[', ']', '{', '}', '^', '$', '#', '&', '-',
    '~'].contains
    character

def escape (character : Char) : Text :=
  if isMeta character then ['\\', character] else [character]

def print : Regex → Text
  | .empty => []
  | .character literal => escape literal
  | .inSegment => ['[', '^', '/', '\\', ':', ']']
  | .sequence first second => first.print ++ second.print
  | .either first second => first.print ++ '|' :: second.print
  | .optional body => body.print ++ ['?']
  | .many body => body.print ++ ['*']
  | .most body => body.print ++ ['+']
  | .fewest body => body.print ++ ['+', '?']
  | .group body => '(' :: body.print ++ [')']
  | .named name body => ['(', '?', '<'] ++ name ++ '>' :: body.print ++ [')']
  | .scope body => ['(', '?', ':'] ++ body.print ++ [')']
  | .foldCase body => ['(', '?', 'i', ')'] ++ body.print
  | .textStart => ['^']
  | .textEnd => ['$']

/-- What sequences gather side by side, the sequence of several parts gathers part by part. -/
theorem gather_concat {Item : Type} (gather : Regex → List Item) (empty : gather .empty = [])
    (sequence : ∀ first second, gather (.sequence first second) = gather first ++ gather second)
    (parts : List Regex) : gather (concat parts) = parts.flatMap gather := by
  have behind :
      ∀ start, gather (parts.foldl .sequence start) = gather start ++ parts.flatMap gather := by
    induction parts with
    | nil => simp
    | cons part parts ih =>
        intro start
        rw [List.foldl_cons, ih, sequence, List.append_assoc, List.flatMap_cons]
  rw [concat, behind, empty, List.nil_append]

end Regex

end PathGlob
