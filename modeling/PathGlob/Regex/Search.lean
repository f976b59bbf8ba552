import PathGlob.CaseFold
import PathGlob.Distinct
import PathGlob.Regex

/-!
# Leftmost-first search

Searching a regular expression in a text. A thread is a position reached so far together with what
the named groups took on the way. `advance` lists the threads that an expression leads to from one
thread, the preferred one first. Two threads at one position have the same future, so only the
preferred one is kept, and a position is visited once per part of the expression. The search takes
the leftmost start from which the expression leads anywhere, and there the preferred thread.
-/
namespace PathGlob.Regex

set_option autoImplicit false

abbrev Captures := List (Text × Text)

structure Thread where
  offset : Nat
  rest : Text
  captures : Captures
  deriving DecidableEq, Repr

namespace Thread

def take (accepts : Char → Bool) (thread : Thread) : List Thread :=
  match thread.rest with
  | next :: rest => if accepts next then [{ thread with offset := thread.offset + 1, rest }] else []
  | [] => []

def close (name : Text) (opened closed : Thread) : Thread :=
  { closed with
    captures := closed.captures ++ [(name, opened.rest.take (closed.offset - opened.offset))] }

def distinct (threads : List Thread) : List Thread := distinctBy offset threads

end Thread

def isSegmentCharacter (character : Char) : Bool := character != '/' && character != ':'

/--
Threads after any number of rounds, more rounds preferred. A round has to move on, so there are
never more rounds than characters left.
-/
def manyRounds (round : Thread → List Thread) : Nat → Thread → List Thread
  | 0, thread => [thread]
  | rounds + 1, thread =>
    ((round thread).filter (thread.offset < ·.offset)).flatMap (manyRounds round rounds) ++ [thread]

def fewRounds (round : Thread → List Thread) : Nat → Thread → List Thread
  | 0, thread => [thread]
  | rounds + 1, thread =>
    thread :: ((round thread).filter (thread.offset < ·.offset)).flatMap (fewRounds round rounds)

/-- The threads that an expression leads to, the preferred one first, one for each position. -/
def advance (mode : CaseMode) : Regex → Thread → List Thread
  | .empty, thread => [thread]
  | .character literal, thread => thread.take (mode.agree literal)
  | .inSegment, thread => thread.take isSegmentCharacter
  | .sequence first second, thread =>
    Thread.distinct ((advance mode first thread).flatMap (advance mode second))
  | .either first second, thread =>
    Thread.distinct (advance mode first thread ++ advance mode second thread)
  | .optional body, thread => Thread.distinct (advance mode body thread ++ [thread])
  | .many body, thread => Thread.distinct (manyRounds (advance mode body) thread.rest.length thread)
  | .most body, thread =>
    Thread.distinct ((advance mode body thread).flatMap fun once =>
      manyRounds (advance mode body) once.rest.length once)
  | .fewest body, thread =>
    Thread.distinct ((advance mode body thread).flatMap fun once =>
      fewRounds (advance mode body) once.rest.length once)
  | .group body, thread => advance mode body thread
  | .named name body, thread => (advance mode body thread).map (thread.close name)
  | .scope body, thread => advance mode body thread
  | .foldCase body, thread => advance .insensitive body thread
  | .textStart, thread => if thread.offset = 0 then [thread] else []
  | .textEnd, thread => if thread.rest.isEmpty then [thread] else []

def searchFrom (regex : Regex) (offset : Nat) : Text → Option Thread
  | [] => (advance .sensitive regex ⟨offset, [], []⟩).head?
  | next :: rest =>
    match advance .sensitive regex ⟨offset, next :: rest, []⟩ with
    | thread :: _ => some thread
    | [] => searchFrom regex (offset + 1) rest

/-- What the named groups take in the leftmost match, if there is a match anywhere in the text. -/
def search (regex : Regex) (text : Text) : Option Captures :=
  (searchFrom regex 0 text).map Thread.captures

def found (regex : Regex) (text : Text) : Bool := (search regex text).isSome

end PathGlob.Regex
