import PathGlob.Proofs.Glob.Following
import PathGlob.Proofs.Pattern.Printed
import PathGlob.Proofs.Template.Naming

/-!
# The written expression of a template

The expression of a template has a group for each placeholder, written with its name. The names can
be taken out of the written form, which leaves numbered groups, and what is left can be read like
the expression of a pattern. So an expression is refused for a name alone: one that no group can
have, or one that two groups have. Names of placeholders that pass their check are neither.
-/
namespace PathGlob

set_option autoImplicit false

namespace Regex

/--
Whether a group can have a name: it starts with a letter or `_`, and letters, digits and `_` follow.
-/
def isGroupName (name : Text) : Bool :=
  name.head?.any (fun first => first.isAlpha || first == '_') && name.all Glob.isNameCharacter

def takeName? (text : Text) : Option (Text × Text) :=
  match text.dropWhile Glob.isNameCharacter with
  | '>' :: rest =>
    if isGroupName (text.takeWhile Glob.isNameCharacter) then
      some (text.takeWhile Glob.isNameCharacter, rest)
    else none
  | _ => none

theorem length_take_name_lt {text name rest : Text} (taken : takeName? text = some (name, rest)) :
    rest.length < text.length := by
  have bound := Glob.length_dropWhile_le Glob.isNameCharacter text
  unfold takeName? at taken
  split at taken
  · rename_i left
    rw [left, List.length_cons] at bound
    split at taken
    · cases taken
      exact bound
    · cases taken
  · cases taken

def inFront (names : List Text) (text : Text) :
    Option (List Text × Text) → Option (List Text × Text) :=
  Option.map (Prod.map (names ++ ·) (text ++ ·))

/--
Takes the names of its groups out of a written expression, so that `(?<name>` becomes `(`. Refused
where a group is opened with what cannot be its name.
-/
def takeNames : Text → Option (List Text × Text)
  | [] => some ([], [])
  | '\\' :: literal :: rest => inFront [] ['\\', literal] (takeNames rest)
  | '(' :: '?' :: '<' :: opened =>
    match _step : takeName? opened with
    | none => none
    | some (name, rest) => inFront [name] ['('] (takeNames rest)
  | next :: rest => inFront [] [next] (takeNames rest)
termination_by text => text.length
decreasing_by
  · simp only [List.length_cons]
    omega
  · have := length_take_name_lt _step
    simp only [List.length_cons]
    omega
  · exact Nat.lt_succ_self _

/--
Reads a written expression with named groups, no two of them of one name. The groups become numbered
ones.
-/
def readNamed (text : Text) : Option (List Text × Regex) := do
  let (names, unnamed) ← takeNames text
  if names.Nodup then (read unnamed).map (names, ·) else none

def groupNames : Regex → List Text
  | .sequence first second => first.groupNames ++ second.groupNames
  | .either first second => first.groupNames ++ second.groupNames
  | .optional body => body.groupNames
  | .many body => body.groupNames
  | .most body => body.groupNames
  | .fewest body => body.groupNames
  | .group body => body.groupNames
  | .named name body => name :: body.groupNames
  | .scope body => body.groupNames
  | .foldCase body => body.groupNames
  | _ => []

def numbered : Regex → Regex
  | .sequence first second => .sequence first.numbered second.numbered
  | .either first second => .either first.numbered second.numbered
  | .optional body => .optional body.numbered
  | .many body => .many body.numbered
  | .most body => .most body.numbered
  | .fewest body => .fewest body.numbered
  | .group body => .group body.numbered
  | .named _ body => .group body.numbered
  | .scope body => .scope body.numbered
  | .foldCase body => .foldCase body.numbered
  | regex => regex

/--
Whether each group opens with what fills it: a numbered one not with a mark, a named one with a
name.
-/
def GroupsOpen : Regex → Prop
  | .sequence first second => first.GroupsOpen ∧ second.GroupsOpen
  | .either first second => first.GroupsOpen ∧ second.GroupsOpen
  | .optional body => body.GroupsOpen
  | .many body => body.GroupsOpen
  | .most body => body.GroupsOpen
  | .fewest body => body.GroupsOpen
  | .group body => Apart body.print ∧ body.GroupsOpen
  | .named name body => isGroupName name = true ∧ body.GroupsOpen
  | .scope body => body.GroupsOpen
  | .foldCase body => body.GroupsOpen
  | _ => True

theorem in_front_in_front (names more : List Text) (text others : Text)
    (taken : Option (List Text × Text)) :
    inFront names text (inFront more others taken) =
      inFront (names ++ more) (text ++ others) taken := by
  rw [inFront, inFront, inFront, Option.map_map, Prod.map_comp_map]
  simp only [Function.comp_def, List.append_assoc]

def Leaves (text : Text) (names : List Text) (left : Text) : Prop :=
  ∀ rest, takeNames (text ++ rest) = inFront names left (takeNames rest)

theorem take_name {name : Text} (named : isGroupName name = true) (rest : Text) :
    takeName? (name ++ '>' :: rest) = some (name, rest) := by
  have characters : ∀ character ∈ name, Glob.isNameCharacter character = true :=
    List.all_eq_true.mp (Bool.and_eq_true_iff.mp named).2
  have taken : (name ++ '>' :: rest).takeWhile Glob.isNameCharacter = name := by
    rw [List.takeWhile_append_of_pos characters]
    exact List.append_nil name
  have left : (name ++ '>' :: rest).dropWhile Glob.isNameCharacter = '>' :: rest := by
    rw [List.dropWhile_append_of_pos characters]
    rfl
  rw [takeName?, left, taken]
  exact if_pos named

def isInert (next : Char) : Bool := next != '\\' && next != '('

namespace Leaves

variable {text left : Text} {names : List Text}

theorem nil : Leaves [] [] [] := fun _ => Option.map_id'.symm

theorem append (first : Leaves text names left) {other others : Text} {more : List Text}
    (second : Leaves other more others) :
    Leaves (text ++ other) (names ++ more) (left ++ others) := by
  intro rest
  rw [List.append_assoc, first, second, in_front_in_front]

theorem plain (inert : text.all isInert = true) : Leaves text [] text := by
  induction text with
  | nil => exact nil
  | cons next text ih =>
      obtain ⟨first, others⟩ := Bool.and_eq_true_iff.mp inert
      have single : Leaves [next] [] [next] := by
        intro rest
        rw [List.singleton_append, takeNames] <;> simp_all [isInert]
      exact single.append (ih others)

theorem backslash (literal : Char) : Leaves ['\\', literal] [] ['\\', literal] := by
  intro rest
  rw [List.cons_append, List.singleton_append, takeNames]

theorem escape (literal : Char) : Leaves (escape literal) [] (escape literal) := by
  rw [Regex.escape]
  split
  · exact backslash literal
  · rename_i ordinary
    have noBackslash : literal ≠ '\\' := fun same => ordinary (same ▸ rfl)
    have noBracket : literal ≠ '(' := fun same => ordinary (same ▸ rfl)
    exact plain (by simp [isInert, noBackslash, noBracket])

theorem behind (leaves : Leaves text names left) (mark : Text) (inert : mark.all isInert = true) :
    Leaves (mark ++ text) names (mark ++ left) := (plain inert).append leaves

theorem before (leaves : Leaves text names left) (mark : Text) (inert : mark.all isInert = true) :
    Leaves (text ++ mark) names (left ++ mark) := by
  have both := leaves.append (plain inert)
  rwa [List.append_nil] at both

theorem opened (leaves : Leaves text names left)
    (other : ∀ rest opened, text ++ rest ≠ '?' :: '<' :: opened) :
    Leaves ('(' :: text) names ('(' :: left) := by
  intro rest
  have opens : takeNames ('(' :: (text ++ rest)) = inFront [] ['('] (takeNames (text ++ rest)) := by
    rw [takeNames]
    · simp
    · rintro opened - same
      exact other rest opened same
  rw [List.cons_append, opens, leaves, in_front_in_front]
  rfl

theorem named (leaves : Leaves text names left) {name : Text} (named : isGroupName name = true) :
    Leaves (['(', '?', '<'] ++ name ++ '>' :: text) (name :: names) ('(' :: left) := by
  intro rest
  have opens : takeNames ('(' :: '?' :: '<' :: (name ++ '>' :: (text ++ rest))) =
      inFront [name] ['('] (takeNames (text ++ rest)) := by
    rw [takeNames, take_name named]
  rw [List.append_assoc, List.append_assoc]
  refine opens.trans ?_
  rw [leaves, in_front_in_front]
  rfl

end Leaves

/-- What is taken out of a written expression are the names of its groups. -/
theorem leaves_print {regex : Regex} (groupsOpen : regex.GroupsOpen) :
    Leaves regex.print regex.groupNames regex.numbered.print := by
  induction regex with
  | empty => exact .nil
  | character literal => exact .escape literal
  | inSegment => exact ((Leaves.backslash ':').behind ['[', '^', '/'] rfl).before [']'] rfl
  | sequence first second firstIh secondIh =>
      exact (firstIh groupsOpen.1).append (secondIh groupsOpen.2)
  | either first second firstIh secondIh =>
      exact (firstIh groupsOpen.1).append ((secondIh groupsOpen.2).behind ['|'] rfl)
  | optional body ih => exact (ih groupsOpen).before ['?'] rfl
  | many body ih => exact (ih groupsOpen).before ['*'] rfl
  | most body ih => exact (ih groupsOpen).before ['+'] rfl
  | fewest body ih => exact (ih groupsOpen).before ['+', '?'] rfl
  | group body ih =>
      apply ((ih groupsOpen.2).before [')'] rfl).opened
      rintro rest opened same
      have apart : Apart (body.print ++ ')' :: rest) := groupsOpen.1.append (by simp [Apart])
      rw [List.append_assoc] at same
      exact apart (congrArg List.head? same)
  | named name body ih =>
      have enclosed := ((ih groupsOpen.2).before [')'] rfl).named groupsOpen.1
      rwa [← List.cons_append, ← List.append_assoc] at enclosed
  | scope body ih =>
      apply (((ih groupsOpen).before [')'] rfl).behind ['?', ':'] rfl).opened
      simp
  | foldCase body ih =>
      apply ((ih groupsOpen).behind ['?', 'i', ')'] rfl).opened
      simp
  | textStart => exact .plain rfl
  | textEnd => exact .plain rfl

theorem group_names_concat (parts : List Regex) :
    (concat parts).groupNames = parts.flatMap groupNames :=
  gather_concat groupNames rfl (fun _ _ => rfl) parts

theorem names_of_nameless {regex : Regex} (nameless : regex.Nameless) :
    regex.groupNames = [] ∧ regex.numbered = regex := by
  induction regex with
  | named name body => exact nameless.elim
  | _ => simp_all [Nameless, groupNames, numbered]

theorem takes_numbered (regex : Regex) (mode : CaseMode) :
    Takes mode regex.numbered = Takes mode regex := by
  induction regex generalizing mode with
  | _ => simp_all [numbered, Takes]

theorem groups_open_inherited : Inherited GroupsOpen where
  empty := trivial
  sequence := fun _ _ first second => ⟨first, second⟩
  character := fun _ => trivial
  listed := by
    intro characters
    refine ⟨apart_one_of characters, ?_⟩
    fun_induction oneOf characters with
    | case1 => trivial
    | case2 only => trivial
    | case3 first rest _ ih => exact ⟨trivial, ih⟩
  anyCharacters := trivial
  wholeSegment := trivial
  anyDirectories := ⟨by simp [Apart, print], trivial, trivial⟩
  optionalSuffix := ⟨((opens_escape '.').append _).apart, trivial, trivial⟩
  textStart := trivial
  textEnd := trivial

theorem numbered_inherited (mode : CaseMode) :
    Inherited fun regex => Restorable mode regex.numbered :=
  let inherited := restorable_inherited mode
  { inherited with
    sequence := fun first second => inherited.sequence first.numbered second.numbered
    listed := by
      intro characters
      rw [numbered, (names_of_nameless (Part.nameless_one_of characters)).2]
      exact inherited.listed characters }

end Regex

open Regex

namespace Glob

theorem group_names_part (part : Part) : (part.regex .named).groupNames = part.name?.toList := by
  cases part with
  | star => rfl
  | literal text => exact (names_of_nameless (Part.nameless_literal text)).1
  | oneOf characters => exact (names_of_nameless (Part.nameless_one_of characters)).1
  | placeholder name => rfl

theorem group_names_parts (isLast : Bool) (parts : List Part) :
    (Component.partsRegex .named isLast parts).groupNames = parts.filterMap Part.name? := by
  have each : ∀ parts : List Part,
      (parts.map (Part.regex .named)).flatMap groupNames = parts.filterMap Part.name? := by
    intro parts
    simp only [List.flatMap_map, group_names_part, List.filterMap_eq_flatMap_toList]
  rw [Component.partsRegex]
  split
  · rename_i before stem dotted
    have noNames : [Regex.literal stem, optionalSuffix].flatMap groupNames = [] := by
      rw [List.flatMap_cons, (names_of_nameless (Part.nameless_literal stem)).1]
      rfl
    rw [Component.parts_of_dotted dotted, group_names_concat, List.flatMap_append, each,
      List.filterMap_append, noNames]
    rfl
  · rw [group_names_concat, each]

theorem group_names_components (due opening : Bool) (components : List Component) :
    (componentRegexes .named due opening components).flatMap groupNames =
      (components.flatMap Component.parts).filterMap Part.name? := by
  have separators : ∀ due : Bool, (separatorIf due).flatMap groupNames = [] := by decide
  induction components generalizing due opening with
  | nil => rfl
  | cons component rest ih =>
      rw [List.flatMap_cons, List.filterMap_append]
      cases component with
      | globstar =>
          have wildcard :
              (anyDirectories :: if rest.isEmpty then [wholeSegment] else []).flatMap groupNames =
                [] := by
            cases rest.isEmpty <;> rfl
          rw [componentRegexes, List.flatMap_append, List.flatMap_append, separators, wildcard, ih]
          rfl
      | literal text =>
          rw [componentRegexes, List.flatMap_append, List.flatMap_cons, separators,
            (names_of_nameless (Part.nameless_literal text)).1, ih]
          rfl
      | compound parts =>
          rw [componentRegexes, List.flatMap_append, List.flatMap_cons, separators,
            group_names_parts, ih]
          rfl

theorem group_names_regex (mode : CaseMode) (glob : Glob) :
    (glob.regex mode .named).groupNames = glob.placeholders := by
  have start : ∀ rooted : Bool,
      (if rooted then [Regex.textStart] else []).flatMap groupNames = [] := by decide
  have folded : ∀ regex, (underCase mode regex).groupNames = regex.groupNames := by
    cases mode <;> exact fun _ => rfl
  rw [regex, folded, group_names_concat, List.flatMap_append, List.flatMap_append, start,
    group_names_components]
  exact List.append_nil _

theorem is_group_name {name : Text} (proper : (Part.placeholder name).Proper)
    (noDigit : name.head?.any Char.isDigit = false) : isGroupName name = true := by
  obtain ⟨first, rest, rfl⟩ := List.exists_cons_of_ne_nil proper.1
  have opens : isNameCharacter first = true := proper.2 first List.mem_cons_self
  rw [isGroupName, Bool.and_eq_true_iff, List.all_eq_true]
  refine ⟨?_, proper.2⟩
  rw [List.head?_cons, Option.any_some] at noDigit
  rwa [isNameCharacter, Char.isAlphanum, noDigit, Bool.or_false] at opens

theorem groups_open_regex {glob : Glob} (proper : glob.Proper)
    (wellNamed : Template.WellNamed glob.placeholders)
    (mode : CaseMode) : (glob.regex mode .named).GroupsOpen := by
  have each :
      ∀ component ∈ glob.components, ∀ part ∈ component.parts, (part.regex .named).GroupsOpen := by
    intro component among part inComponent
    apply groups_open_inherited.part
    rintro name rfl
    have named : name ∈ glob.placeholders :=
      List.mem_filterMap.mpr ⟨_, List.mem_flatMap.mpr ⟨component, among, inComponent⟩, rfl⟩
    have spelled : (Part.placeholder name).Proper := by
      cases component with
      | compound parts => exact (proper.components _ among).spelled.2 _ inComponent
      | _ => cases inComponent
    exact ⟨is_group_name spelled (wellNamed.noDigit name named), trivial⟩
  have opens := groups_open_inherited.anchored glob each
  rw [regex]
  cases mode <;> exact opens

theorem read_numbered_regex (mode : CaseMode) (glob : Glob) :
    ∃ whole, ReadWhole .sensitive (glob.regex mode .named).numbered whole := by
  have inherited := numbered_inherited mode
  have each : ∀ part : Part, Restorable mode (part.regex .named).numbered := by
    intro part
    apply inherited.part
    rintro name rfl
    have inside := (ReadAlone.inSegment mode).repeated .fewest
    exact ⟨_, (ReadAlone.group inside.readWhole inside.apart).readAs⟩
  have folded : ∀ regex, (underCase mode regex).numbered = underCase mode regex.numbered := by
    cases mode <;> exact fun _ => rfl
  rw [regex, folded]
  exact (inherited.anchored glob fun _ _ part _ => each part).under_case

/-- The written expression of a glob whose names have passed their check can be read. -/
theorem read_named_regex {glob : Glob} (proper : glob.Proper)
    (wellNamed : Template.WellNamed glob.placeholders) (mode : CaseMode) :
    ∃ expression,
      Regex.readNamed (glob.regex mode .named).print = some (glob.placeholders, expression) ∧
      Takes .sensitive expression = Takes .sensitive (glob.regex mode .named) := by
  obtain ⟨expression, read⟩ := read_numbered_regex mode glob
  have taken := leaves_print (groups_open_regex proper wellNamed mode) []
  rw [List.append_nil, group_names_regex, takeNames, inFront, Option.map_some, Prod.map_apply,
    List.append_nil, List.append_nil] at taken
  refine ⟨expression, ?_, read.takes.trans (takes_numbered _ _)⟩
  rw [Regex.readNamed, taken, Option.bind_eq_bind, Option.bind_some]
  dsimp only
  rw [if_pos wellNamed.distinct, read.read_print]
  rfl

end Glob

end PathGlob
