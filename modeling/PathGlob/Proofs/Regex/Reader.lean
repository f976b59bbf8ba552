import PathGlob.Proofs.Glob.Segment

/-!
# Reading written expressions

Reads the written form of an expression back, character by character, as its syntax is documented:
a backslash makes a meta character stand for itself, `|` is weaker than a sequence and a repetition
takes the one item before it, and `(?i)` holds up to the end of the group that it stands in. What is
read need not be the tree that was written, since sequences have no nesting of their own, but it
takes the same texts. So an expression is followed from its parts up: each is read as some items,
whatever stands around it, and these take what the part takes and hold its characters.
-/
namespace PathGlob.Regex

set_option autoImplicit false

inductive Repetition where
  | optional
  | many
  | most
  | fewest

namespace Repetition

def mark : Repetition → Text
  | .optional => ['?']
  | .many => ['*']
  | .most => ['+']
  | .fewest => ['+', '?']

def regex : Repetition → Regex → Regex
  | .optional => .optional
  | .many => .many
  | .most => .most
  | .fewest => .fewest

end Repetition

structure Frame where
  enclose : Regex → Regex := id
  mode : CaseMode := .sensitive
  earlier : List Regex := []
  items : List Regex := []

namespace Frame

def add (frame : Frame) (item : Regex) : Frame := { frame with items := item :: frame.items }

def addAll (frame : Frame) (items : List Regex) : Frame :=
  { frame with items := items.reverse ++ frame.items }

def addCharacter (frame : Frame) (literal : Char) : Frame :=
  frame.add (underCase frame.mode (.character literal))

def nextAlternative (frame : Frame) : Frame :=
  { frame with earlier := concat frame.items.reverse :: frame.earlier, items := [] }

def choiceWith (frame : Frame) (current : Regex) : Regex :=
  frame.earlier.foldl (fun later one => .either one later) current

def close (frame : Frame) : Regex := frame.enclose (frame.choiceWith (concat frame.items.reverse))

def repeatLast (frame : Frame) (repetition : Repetition) : Option Frame :=
  match frame.items with
  | [] => none
  | last :: items => some { frame with items := repetition.regex last :: items }

end Frame

/--
Reads on in a group, the groups around it being open as well, the innermost first. Constructs that
no glob is written with are refused, as is what is no expression at all.
-/
def readIn (outer : List Frame) (frame : Frame) : Text → Option Regex
  | [] => if outer.isEmpty then some frame.close else none
  | '\\' :: literal :: rest =>
    if isMeta literal then readIn outer (frame.addCharacter literal) rest else none
  | '[' :: '^' :: '/' :: '\\' :: ':' :: ']' :: rest => readIn outer (frame.add .inSegment) rest
  | '(' :: '?' :: ':' :: rest =>
    readIn (frame :: outer) { enclose := .scope, mode := frame.mode } rest
  | '(' :: '?' :: 'i' :: ')' :: rest =>
    -- Globs have it only in front of an alternative. Behind an item it is refused, not misread.
    if frame.items.isEmpty then readIn outer { frame with mode := .insensitive } rest else none
  | '(' :: '?' :: _ => none
  | '(' :: rest => readIn (frame :: outer) { enclose := .group, mode := frame.mode } rest
  | ')' :: rest =>
    match outer with
    | [] => none
    | around :: outer => readIn outer (around.add frame.close) rest
  | '|' :: rest => readIn outer frame.nextAlternative rest
  | '+' :: '?' :: rest => (frame.repeatLast .fewest).bind (readIn outer · rest)
  | '+' :: rest => (frame.repeatLast .most).bind (readIn outer · rest)
  | '*' :: '?' :: _ => none
  | '*' :: rest => (frame.repeatLast .many).bind (readIn outer · rest)
  | '?' :: '?' :: _ => none
  | '?' :: rest => (frame.repeatLast .optional).bind (readIn outer · rest)
  | '^' :: rest => readIn outer (frame.add .textStart) rest
  | '$' :: rest => readIn outer (frame.add .textEnd) rest
  | next :: rest =>
    if ['\\', '[', '{', '.'].contains next then none
    else readIn outer (frame.addCharacter next) rest

def read (text : Text) : Option Regex := readIn [] {} text

def characters : Regex → Text
  | .character literal => [literal]
  | .sequence first second => first.characters ++ second.characters
  | .either first second => first.characters ++ second.characters
  | .optional body => body.characters
  | .many body => body.characters
  | .most body => body.characters
  | .fewest body => body.characters
  | .group body => body.characters
  | .named _ body => body.characters
  | .scope body => body.characters
  | .foldCase body => body.characters
  | _ => []

theorem characters_concat (parts : List Regex) :
    (concat parts).characters = parts.flatMap characters :=
  gather_concat characters rfl (fun _ _ => rfl) parts

@[simp] theorem characters_under_case (mode : CaseMode) (regex : Regex) :
    (underCase mode regex).characters = regex.characters := by
  cases mode <;> rfl

def Apart (text : Text) : Prop := text.head? ≠ some '?'

def Opens (text : Text) : Prop := ∃ first rest, text = first :: rest ∧ first ≠ '?'

theorem Opens.append {first : Text} (opens : Opens first) (second : Text) :
    Opens (first ++ second) := by
  rcases opens with ⟨next, rest, rfl, other⟩
  exact ⟨next, rest ++ second, rfl, other⟩

theorem Opens.apart {text : Text} (opens : Opens text) : Apart text := by
  rcases opens with ⟨next, rest, rfl, other⟩
  exact fun same => other (Option.some.inj same)

theorem Apart.append {first second : Text} (left : Apart first) (right : Apart second) :
    Apart (first ++ second) := by
  cases first with
  | nil => exact right
  | cons next first => exact left

theorem opens_escape (literal : Char) : Opens (escape literal) := by
  rw [escape]
  split
  · exact ⟨'\\', [literal], rfl, by decide⟩
  · rename_i plain
    refine ⟨literal, [], rfl, ?_⟩
    intro same
    exact plain (same ▸ rfl)

section Constructs

variable (outer : List Frame) (frame : Frame) (rest : Text)

theorem read_in_escape (literal : Char) :
    readIn outer frame (escape literal ++ rest) =
      readIn outer (frame.addCharacter literal) rest := by
  rw [escape]
  split
  · rename_i special
    rw [List.cons_append, List.singleton_append, readIn, if_pos special]
  · rename_i plain
    have others := plain
    simp only [isMeta, List.contains_eq_mem, List.mem_cons, List.not_mem_nil, or_false,
      decide_eq_true_eq, not_or] at others
    rw [List.singleton_append, readIn] <;> simp_all

theorem read_in_group (apart : Apart rest) :
    readIn outer frame ('(' :: rest) =
      readIn (frame :: outer) { enclose := .group, mode := frame.mode } rest := by
  cases rest with
  | nil => rfl
  | cons next rest =>
      have other : next ≠ '?' := fun same => apart (congrArg some same)
      rw [readIn] <;> simp [other]

theorem read_in_repetition (repetition : Repetition) (apart : Apart rest) :
    readIn outer frame (repetition.mark ++ rest) =
      (frame.repeatLast repetition).bind (readIn outer · rest) := by
  have noMark : ∀ later, rest ≠ '?' :: later := fun later same => apart (congrArg List.head? same)
  cases repetition with
  | fewest => rfl
  | optional =>
      rw [Repetition.mark, List.singleton_append, readIn]
      exact noMark
  | many =>
      rw [Repetition.mark, List.singleton_append, readIn]
      exact noMark
  | most =>
      rw [Repetition.mark, List.singleton_append, readIn]
      exact noMark

end Constructs

section Takes

theorem takes_concat_append (mode : CaseMode) (parts others : List Regex) :
    Takes mode (concat (parts ++ others)) =
      Both (Takes mode (concat parts)) (Takes mode (concat others)) := by
  funext before taken after
  exact propext (takes_concat_append_iff mode parts others before taken after)

theorem takes_concat_singleton (mode : CaseMode) (part : Regex) :
    Takes mode (concat [part]) = Takes mode part := by
  funext before taken after
  exact propext (takes_concat_singleton_iff mode part before taken after)

end Takes

/-- Whether a written expression is read as one item, whatever comes behind it. -/
structure ReadAlone (mode : CaseMode) (regex item : Regex) : Prop where
  reads : ∀ outer frame rest, frame.mode = mode →
    readIn outer frame (regex.print ++ rest) = readIn outer (frame.add item) rest
  opens : Opens regex.print
  takes : Takes .sensitive item = Takes mode regex
  characters : item.characters = regex.characters

structure ReadAs (mode : CaseMode) (regex : Regex) (items : List Regex) : Prop where
  reads : ∀ outer frame rest, frame.mode = mode → Apart rest →
    readIn outer frame (regex.print ++ rest) = readIn outer (frame.addAll items) rest
  apart : Apart regex.print
  takes : Takes .sensitive (concat items) = Takes mode regex
  characters : items.flatMap Regex.characters = regex.characters

structure ReadWhole (mode : CaseMode) (regex whole : Regex) : Prop where
  reads : ∀ outer frame rest, frame.mode = mode → frame.items = [] → Apart rest →
    ∃ last : Frame, readIn outer frame (regex.print ++ rest) = readIn outer last rest ∧
      last.close = frame.enclose (frame.choiceWith whole)
  takes : Takes .sensitive whole = Takes mode regex
  characters : whole.characters = regex.characters

variable {mode : CaseMode} {regex body item whole : Regex} {items : List Regex}

theorem ReadWhole.read_enclosed (read : ReadWhole mode regex whole) (enclose : Regex → Regex)
    (outer : List Frame) (frame : Frame) (rest : Text) :
    readIn (frame :: outer) { enclose, mode } (regex.print ++ ')' :: rest) =
      readIn outer (frame.add (enclose whole)) rest := by
  have ends : Apart (')' :: rest) := by simp [Apart]
  rcases read.reads (frame :: outer) { enclose, mode } (')' :: rest) rfl rfl ends with
    ⟨last, same, closed⟩
  have closing : readIn (frame :: outer) last (')' :: rest) =
      readIn outer (frame.add last.close) rest := rfl
  rw [same, closing, closed]
  rfl

namespace ReadAlone

theorem character (mode : CaseMode) (literal : Char) :
    ReadAlone mode (.character literal) (underCase mode (.character literal)) where
  reads := by
    intro outer frame rest sameMode
    subst sameMode
    exact read_in_escape outer frame rest literal
  opens := opens_escape literal
  takes := takes_under_case mode _
  characters := characters_under_case mode _

theorem fixed {construct : Regex}
    (reads : ∀ outer frame rest,
      readIn outer frame (construct.print ++ rest) = readIn outer (frame.add construct) rest)
    (opens : Opens construct.print) (takes : Takes .sensitive construct = Takes mode construct) :
    ReadAlone mode construct construct where
  reads := fun outer frame rest _ => reads outer frame rest
  opens := opens
  takes := takes
  characters := rfl

theorem inSegment (mode : CaseMode) : ReadAlone mode .inSegment .inSegment :=
  .fixed (fun _ _ _ => rfl) ⟨_, _, rfl, by decide⟩ rfl

theorem textStart (mode : CaseMode) : ReadAlone mode .textStart .textStart :=
  .fixed (fun _ _ _ => rfl) ⟨_, _, rfl, by decide⟩ rfl

theorem textEnd (mode : CaseMode) : ReadAlone mode .textEnd .textEnd :=
  .fixed (fun _ _ _ => rfl) ⟨_, _, rfl, by decide⟩ rfl

theorem group (read : ReadWhole mode body whole) (apart : Apart body.print) :
    ReadAlone mode (.group body) (.group whole) where
  reads := by
    intro outer frame rest sameMode
    have ends : Apart (')' :: rest) := by simp [Apart]
    subst sameMode
    rw [print, List.cons_append, List.cons_append, List.append_assoc, List.singleton_append,
      read_in_group outer frame _ (apart.append ends), read.read_enclosed]
  opens := ⟨_, _, rfl, by decide⟩
  takes := read.takes
  characters := read.characters

theorem scope (read : ReadWhole mode body whole) : ReadAlone mode (.scope body) (.scope whole) where
  reads := by
    intro outer frame rest sameMode
    subst sameMode
    have opened : readIn outer frame ((Regex.scope body).print ++ rest) =
        readIn (frame :: outer) { enclose := .scope, mode := frame.mode }
          (body.print ++ [')'] ++ rest) := rfl
    rw [opened, List.append_assoc, List.singleton_append, read.read_enclosed]
  opens := ⟨_, _, rfl, by decide⟩
  takes := read.takes
  characters := read.characters

theorem readAs (alone : ReadAlone mode regex item) : ReadAs mode regex [item] where
  reads := fun outer frame rest sameMode _ => alone.reads outer frame rest sameMode
  apart := alone.opens.apart
  takes := (takes_concat_singleton .sensitive item).trans alone.takes
  characters := by rw [List.flatMap_singleton, alone.characters]

theorem repeated (alone : ReadAlone mode body item) (repetition : Repetition) :
    ReadAs mode (repetition.regex body) [repetition.regex item] := by
  have printed : (repetition.regex body).print = body.print ++ repetition.mark := by
    cases repetition <;> rfl
  constructor
  · intro outer frame rest sameMode apart
    rw [printed, List.append_assoc, alone.reads outer frame _ sameMode,
      read_in_repetition _ _ _ _ apart]
    rfl
  · rw [printed]
    exact (alone.opens.append repetition.mark).apart
  · rw [takes_concat_singleton]
    cases repetition <;> simp only [Repetition.regex, Takes, alone.takes]
  · rw [List.flatMap_singleton]
    cases repetition <;> exact alone.characters

end ReadAlone

namespace ReadAs

theorem empty (mode : CaseMode) : ReadAs mode .empty [] where
  reads := fun _ _ _ _ _ => rfl
  apart := by simp [Apart, print]
  takes := rfl
  characters := rfl

theorem sequence {first second : Regex} {firsts seconds : List Regex}
    (left : ReadAs mode first firsts) (right : ReadAs mode second seconds) :
    ReadAs mode (.sequence first second) (firsts ++ seconds) where
  reads := by
    intro outer frame rest sameMode apart
    have added : (frame.addAll firsts).addAll seconds = frame.addAll (firsts ++ seconds) := by
      simp [Frame.addAll]
    rw [print, List.append_assoc, left.reads outer frame _ sameMode (right.apart.append apart),
      right.reads outer (frame.addAll firsts) rest sameMode apart, added]
  apart := left.apart.append right.apart
  takes := by
    rw [takes_concat_append, left.takes, right.takes]
    rfl
  characters := by rw [List.flatMap_append, left.characters, right.characters, Regex.characters]

theorem readWhole (read : ReadAs mode regex items) : ReadWhole mode regex (concat items) where
  reads := by
    intro outer frame rest sameMode none apart
    refine ⟨frame.addAll items, read.reads outer frame rest sameMode apart, ?_⟩
    simp [Frame.close, Frame.addAll, Frame.choiceWith, none]
  takes := read.takes
  characters := (characters_concat items).trans read.characters

theorem either {second : Regex} (read : ReadAs mode regex items)
    (others : ReadWhole mode second whole) :
    ReadWhole mode (.either regex second) (.either (concat items) whole) where
  reads := by
    intro outer frame rest sameMode none apart
    have bar : Apart ('|' :: (second.print ++ rest)) := by simp [Apart]
    have next : readIn outer (frame.addAll items) ('|' :: (second.print ++ rest)) =
        readIn outer (frame.addAll items).nextAlternative (second.print ++ rest) := rfl
    rcases others.reads outer (frame.addAll items).nextAlternative rest sameMode rfl apart with
      ⟨last, same, closed⟩
    refine ⟨last, ?_, ?_⟩
    · rw [print, List.append_assoc, List.cons_append, read.reads outer frame _ sameMode bar,
        next, same]
    · rw [closed]
      simp [Frame.nextAlternative, Frame.addAll, Frame.choiceWith, none]
  takes := by
    simp only [Takes, read.takes, others.takes]
  characters := by
    rw [Regex.characters, characters_concat, read.characters, others.characters, Regex.characters]

end ReadAs

/-- The case mode at the front of a group is that of all that fills it. -/
theorem ReadWhole.foldCase (read : ReadWhole .insensitive regex whole) (mode : CaseMode) :
    ReadWhole mode (.foldCase regex) whole where
  reads := by
    intro outer frame rest _ none apart
    have folds : readIn outer frame ((Regex.foldCase regex).print ++ rest) =
        readIn outer { frame with mode := .insensitive } (regex.print ++ rest) := by
      rw [print, List.append_assoc]
      exact if_pos (by simp [none])
    rw [folds]
    exact read.reads outer { frame with mode := .insensitive } rest rfl none apart
  takes := read.takes
  characters := read.characters

theorem ReadWhole.read_print (written : ReadWhole .sensitive regex whole) :
    Regex.read regex.print = some whole := by
  rcases written.reads [] {} [] rfl rfl (by simp [Apart]) with ⟨last, same, closed⟩
  rw [List.append_nil] at same
  rw [Regex.read, same]
  exact congrArg some closed

/-- The expression `(?:(?i)a)|b`: the case mode ends with its group. -/
example : Regex.read ['(', '?', ':', '(', '?', 'i', ')', 'a', ')', '|', 'b'] =
    some
      (.either (concat [.scope (concat [.foldCase (.character 'a')])])
        (concat [.character 'b'])) := by
  decide +kernel

end PathGlob.Regex
