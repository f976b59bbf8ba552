import PathGlob.Proofs.Pattern.Identity
import PathGlob.Proofs.Pattern.Matching
import PathGlob.Proofs.Regex.Reader

/-!
# The written expression of a pattern

The written expression of a pattern says what the pattern does: read again, it is found in a rooted
path exactly when the pattern matches. Nothing in the text of a pattern can change how its
expression is read. The characters that the expression compares with are those of the text, in
order, apart from the separators and the ones that stand for wildcards, lists and choices.
-/
namespace PathGlob

set_option autoImplicit false

open Regex

theorem Component.parts_of_dotted {isLast : Bool} {parts before : List Part} {stem : Text}
    (dotted : (if isLast then Part.dotStar? parts else none) = some (before, stem)) :
    parts = before ++ [.literal (stem ++ ['.']), .star] := by
  cases isLast with
  | false => cases dotted
  | true => exact (Part.dot_star_eq_some_iff parts before stem).mp dotted

namespace Regex

def Restorable (mode : CaseMode) (regex : Regex) : Prop := ∃ items, ReadAs mode regex items

theorem Restorable.under_case {mode : CaseMode} {regex : Regex}
    (restorable : Restorable mode regex) :
    ∃ whole, ReadWhole .sensitive (underCase mode regex) whole := by
  obtain ⟨_, read⟩ := restorable
  cases mode with
  | sensitive => exact ⟨_, read.readWhole⟩
  | insensitive => exact ⟨_, read.readWhole.foldCase .sensitive⟩

theorem read_one_of (mode : CaseMode) (characters : Text) :
    ∃ whole, ReadWhole mode (oneOf characters) whole := by
  fun_induction oneOf characters with
  | case1 => exact ⟨_, (ReadAs.empty mode).readWhole⟩
  | case2 only => exact ⟨_, (ReadAlone.character mode only).readAs.readWhole⟩
  | case3 first rest _ ih =>
      rcases ih with ⟨_, others⟩
      exact ⟨_, (ReadAlone.character mode first).readAs.either others⟩

theorem apart_one_of (characters : Text) : Apart (oneOf characters).print := by
  fun_cases oneOf characters with
  | case1 => simp [Apart, print]
  | case2 only => exact (opens_escape only).apart
  | case3 first rest _ => exact ((opens_escape first).append _).apart

theorem restorable_group_one_of (mode : CaseMode) (characters : Text) :
    Restorable mode (.group (oneOf characters)) := by
  rcases read_one_of mode characters with ⟨_, read⟩
  exact ⟨_, (ReadAlone.group read (apart_one_of characters)).readAs⟩

theorem restorable_any_characters (mode : CaseMode) : Restorable mode anyCharacters :=
  ⟨_, (ReadAlone.inSegment mode).repeated .fewest⟩

theorem restorable_whole_segment (mode : CaseMode) : Restorable mode wholeSegment :=
  ⟨_, (ReadAlone.inSegment mode).repeated .most⟩

theorem restorable_any_directories (mode : CaseMode) : Restorable mode anyDirectories := by
  have directory :=
    ((ReadAlone.inSegment mode).repeated .most).sequence (ReadAlone.character mode '/').readAs
  exact ⟨_, (ReadAlone.group directory.readWhole directory.apart).repeated .many⟩

theorem restorable_optional_suffix (mode : CaseMode) : Restorable mode optionalSuffix := by
  have suffix :=
    (ReadAlone.character mode '.').readAs.sequence ((ReadAlone.inSegment mode).repeated .many)
  exact ⟨_, (ReadAlone.group suffix.readWhole suffix.apart).repeated .optional⟩

/-- Whether expressions have a property if what globs make them of has it. -/
structure Inherited (holds : Regex → Prop) : Prop where
  empty : holds .empty
  sequence : ∀ first second, holds first → holds second → holds (.sequence first second)
  character : ∀ letter, holds (.character letter)
  listed : ∀ characters, holds (.group (oneOf characters))
  anyCharacters : holds anyCharacters
  wholeSegment : holds wholeSegment
  anyDirectories : holds anyDirectories
  optionalSuffix : holds optionalSuffix
  textStart : holds .textStart
  textEnd : holds .textEnd

theorem restorable_inherited (mode : CaseMode) : Inherited (Restorable mode) where
  empty := ⟨_, .empty mode⟩
  sequence := by
    rintro first second ⟨_, before⟩ ⟨_, next⟩
    exact ⟨_, before.sequence next⟩
  character := fun letter => ⟨_, (ReadAlone.character mode letter).readAs⟩
  listed := restorable_group_one_of mode
  anyCharacters := restorable_any_characters mode
  wholeSegment := restorable_whole_segment mode
  anyDirectories := restorable_any_directories mode
  optionalSuffix := restorable_optional_suffix mode
  textStart := ⟨_, (ReadAlone.textStart mode).readAs⟩
  textEnd := ⟨_, (ReadAlone.textEnd mode).readAs⟩

namespace Inherited

variable {holds : Regex → Prop} (inherited : Inherited holds) {reporting : Reporting}

include inherited

theorem concat {parts : List Regex} (each : ∀ part ∈ parts, holds part) : holds (concat parts) := by
  suffices general :
      ∀ start, holds start → holds (parts.foldl .sequence start) from general .empty inherited.empty
  induction parts with
  | nil => exact fun _ before => before
  | cons part parts ih =>
      obtain ⟨next, others⟩ := List.forall_mem_cons.mp each
      exact fun start before => ih others _ (inherited.sequence start part before next)

theorem literal (text : Text) : holds (literal text) := by
  apply inherited.concat
  rw [List.forall_mem_map]
  exact fun letter _ => inherited.character letter

theorem part {part : Part}
    (named : ∀ name, part = .placeholder name → holds (part.regex reporting)) :
    holds (part.regex reporting) := by
  cases part with
  | star => exact inherited.anyCharacters
  | literal text => exact inherited.literal text
  | oneOf characters => exact inherited.listed characters
  | placeholder name => exact named name rfl

theorem parts_regex {parts : List Part} (each : ∀ part ∈ parts, holds (part.regex reporting))
    (isLast : Bool) :
    holds (Component.partsRegex reporting isLast parts) := by
  rw [Component.partsRegex]
  split
  · rename_i before stem dotted
    rw [Component.parts_of_dotted dotted, List.forall_mem_append] at each
    apply inherited.concat
    rw [List.forall_mem_append, List.forall_mem_map, List.forall_mem_cons,
      List.forall_mem_singleton]
    exact ⟨each.1, inherited.literal stem, inherited.optionalSuffix⟩
  · apply inherited.concat
    rwa [List.forall_mem_map]

theorem separator_if (due : Bool) : ∀ regex ∈ Glob.separatorIf due, holds regex := by
  cases due with
  | false => exact List.forall_mem_nil _
  | true => exact List.forall_mem_singleton.mpr (inherited.character '/')

theorem component_regexes {components : List Component}
    (each : ∀ component ∈ components, ∀ part ∈ component.parts, holds (part.regex reporting))
    (due opening : Bool) :
    ∀ regex ∈ Glob.componentRegexes reporting due opening components, holds regex := by
  induction components generalizing due opening with
  | nil => exact List.forall_mem_nil _
  | cons component rest ih =>
      obtain ⟨first, others⟩ := List.forall_mem_cons.mp each
      cases component with
      | globstar =>
          simp only [Glob.componentRegexes, List.forall_mem_append, List.forall_mem_cons]
          refine ⟨⟨inherited.separator_if _, inherited.anyDirectories, ?_⟩, ih others opening false⟩
          split
          · exact List.forall_mem_singleton.mpr inherited.wholeSegment
          · exact List.forall_mem_nil _
      | literal text =>
          simp only [Glob.componentRegexes, List.forall_mem_append, List.forall_mem_cons]
          exact ⟨inherited.separator_if due, inherited.literal text, ih others true false⟩
      | compound parts =>
          simp only [Glob.componentRegexes, List.forall_mem_append, List.forall_mem_cons]
          exact ⟨inherited.separator_if due, inherited.parts_regex first _, ih others true false⟩

/-- What holds of the expressions of its parts holds of a glob's. -/
theorem anchored (glob : Glob)
    (each : ∀ component ∈ glob.components, ∀ part ∈ component.parts, holds (part.regex reporting)) :
    holds (Regex.concat ((if glob.rooted then [.textStart] else []) ++
      Glob.componentRegexes reporting true (!glob.rooted) glob.components ++ [.textEnd])) := by
  apply inherited.concat
  simp only [List.forall_mem_append, List.forall_mem_singleton]
  refine ⟨⟨?_, inherited.component_regexes each true _⟩, inherited.textEnd⟩
  split
  · exact List.forall_mem_singleton.mpr inherited.textStart
  · exact List.forall_mem_nil _

end Inherited

end Regex

theorem Part.restorable_regex (mode : CaseMode) (part : Part) :
    Restorable mode (part.regex .silent) := by
  have inherited := restorable_inherited mode
  apply inherited.part
  rintro name rfl
  exact inherited.anyCharacters

theorem Glob.read_regex (mode : CaseMode) (glob : Glob) :
    ∃ whole, ReadWhole .sensitive (glob.regex mode .silent) whole :=
  ((restorable_inherited mode).anchored glob fun _ _ part _ =>
    part.restorable_regex mode).under_case

theorem Component.read_name_regex (mode : CaseMode) (isLast : Bool) (parts : List Part) :
    ∃ whole, ReadWhole .sensitive (nameRegex mode isLast parts) whole := by
  have inherited := restorable_inherited mode
  apply Restorable.under_case
  apply inherited.concat
  rw [List.forall_mem_cons, List.forall_mem_cons, List.forall_mem_singleton]
  exact ⟨inherited.textStart,
    inherited.parts_regex (fun part _ => part.restorable_regex mode) isLast,
    inherited.textEnd⟩

theorem Component.name_regex_of_selector {mode : CaseMode} {components : List Component}
    {regex : Regex} (among : .named regex ∈ selectors mode components) :
    ∃ isLast parts, regex = nameRegex mode isLast parts := by
  induction components with
  | nil => cases among
  | cons component rest ih =>
      rcases List.mem_cons.mp among with selects | later
      · cases component with
        | literal name =>
            cases mode with
            | sensitive => cases selects
            | insensitive => exact ⟨_, _, Selector.named.inj selects⟩
        | compound parts => exact ⟨_, _, Selector.named.inj selects⟩
        | globstar => cases selects
      · exact ih later

namespace Pattern

theorem read_choice (first : Branch) (branches : List Branch) :
    ∃ whole, ReadWhole .sensitive (regex.choice first branches) whole := by
  induction branches generalizing first with
  | nil =>
      rcases first.glob.read_regex first.mode with ⟨_, read⟩
      exact ⟨_, (ReadAlone.scope read).readAs.readWhole⟩
  | cons second branches ih =>
      rcases first.glob.read_regex first.mode with ⟨_, read⟩
      rcases ih second with ⟨_, others⟩
      exact ⟨_, (ReadAlone.scope read).readAs.either others⟩

theorem read_regex (pattern : Pattern) : ∃ whole, ReadWhole .sensitive pattern.regex whole := by
  rw [regex]
  split
  · exact ⟨_, (ReadAs.empty .sensitive).readWhole⟩
  · rename_i only _
    exact only.glob.read_regex only.mode
  · exact read_choice _ _

/--
Whether all that is written for a pattern can be read: its expression, and those that names are
compared with.
-/
structure Readable (pattern : Pattern) : Prop where
  whole : ∃ expression, Regex.read pattern.regex.print = some expression
  named : ∀ branch ∈ pattern.branches, ∀ regex, .named regex ∈ branch.selectors →
    ∃ expression, Regex.read regex.print = some expression

theorem readable (pattern : Pattern) : pattern.Readable where
  whole := by
    obtain ⟨expression, read⟩ := pattern.read_regex
    exact ⟨expression, read.read_print⟩
  named := by
    intro branch _ regex among
    obtain ⟨isLast, parts, rfl⟩ := Component.name_regex_of_selector among
    obtain ⟨expression, read⟩ := Component.read_name_regex branch.mode isLast parts
    exact ⟨expression, read.read_print⟩

end Pattern

section Found

variable (text : Text)

theorem Regex.found_congr {regex other : Regex}
    (same : Takes .sensitive regex = Takes .sensitive other) :
    regex.found text = true ↔ other.found text = true := by
  rw [found_iff_takes, found_iff_takes, same]

theorem Regex.found_scope (body : Regex) :
    (Regex.scope body).found text = true ↔ body.found text = true :=
  found_congr text rfl

theorem Regex.found_either (first second : Regex) :
    (Regex.either first second).found text = true ↔
      first.found text = true ∨ second.found text = true := by
  simp only [found_iff_takes, Takes]
  constructor
  · intro found
    rcases found with ⟨before, taken, after, same, either⟩
    exact either.imp (fun takes => ⟨before, taken, after, same, takes⟩)
      (fun takes => ⟨before, taken, after, same, takes⟩)
  · intro either
    rcases either with ⟨before, taken, after, same, takes⟩ | ⟨before, taken, after, same, takes⟩
    · exact ⟨before, taken, after, same, .inl takes⟩
    · exact ⟨before, taken, after, same, .inr takes⟩

namespace Pattern

theorem found_choice_iff (first : Branch) (branches : List Branch) :
    (regex.choice first branches).found text = true ↔
      ∃ branch ∈ first :: branches, branch.regex.found text = true := by
  induction branches generalizing first with
  | nil => simp [regex.choice, found_scope]
  | cons second branches ih =>
      rw [regex.choice, found_either, found_scope, ih]
      simp only [List.exists_mem_cons_iff]

theorem found_iff {pattern : Pattern} (nonempty : pattern.branches ≠ []) :
    pattern.regex.found text = true ↔
    ∃ branch ∈ pattern.branches, branch.regex.found text = true := by
  rw [regex]
  split
  · rename_i none
    exact absurd none nonempty
  · rename_i only same
    simp [same]
  · rename_i first rest _ same
    rw [same, found_choice_iff]

theorem matches_iff_found {pattern : Pattern} (nonempty : pattern.branches ≠ []) {path : Text}
    (rooted : Path.startsAtRoot path = true) :
    pattern.matchesPath path = true ↔ pattern.regex.found (Path.normalize path) = true := by
  have subject : ∀ glob : Glob, glob.subject (Path.normalize path) = Path.normalize path := by
    intro glob
    rw [Glob.subject, Path.is_rooted_normalize, rooted, Bool.or_true]
    rfl
  rw [found_iff _ nonempty, matchesPath, List.any_eq_true]
  simp only [Branch.matchesPath, subject]

end Pattern

end Found

/-- Whether a character of a pattern is no wildcard, bracket, separator or choice. -/
def standsForItself (character : Char) : Bool :=
  !(['*', '[', ']', '/', '\\', ';'].contains character)

section Characters

theorem filter_plain {text : Text} (plain : ∀ character ∈ text, isSpecial character = false) :
    text.filter standsForItself = text := by
  rw [List.filter_eq_self]
  intro character member
  have ordinary := plain character member
  simp only [isSpecial, standsForItself, List.contains_eq_mem, List.mem_cons, List.not_mem_nil,
    or_false, decide_eq_false_iff_not, Bool.not_eq_true', not_or] at ordinary ⊢
  simp [ordinary]

theorem filter_join_with {separator : Char} (syntactic : standsForItself separator = false)
    (texts : List Text) :
    (Text.joinWith separator texts).filter standsForItself =
      texts.flatten.filter standsForItself := by
  induction texts with
  | nil => rfl
  | cons text texts ih =>
      cases texts with
      | nil => simp [Text.joinWith]
      | cons next texts =>
          have joined : Text.joinWith separator (text :: next :: texts) =
              text ++ separator :: Text.joinWith separator (next :: texts) := by
            rw [Text.joinWith, List.intercalate_cons_cons, List.append_assoc]
            rfl
          rw [joined, List.filter_append, List.filter_cons, syntactic, if_neg Bool.false_ne_true,
            ih, List.flatten_cons (l := text), List.filter_append]

theorem Regex.characters_literal (text : Text) : (literal text).characters = text := by
  rw [literal, characters_concat, List.flatMap_map]
  exact List.flatMap_singleton' text

theorem Regex.characters_one_of (text : Text) : (oneOf text).characters = text := by
  fun_induction oneOf text with
  | case1 => rfl
  | case2 only => rfl
  | case3 first rest _ ih => simp [Regex.characters, ih]

theorem Part.characters_regex {part : Part} (proper : part.Proper) (plain : part.name? = none) :
    (part.regex .silent).characters = part.print.filter standsForItself := by
  cases part with
  | star => rfl
  | literal text =>
      rw [print, filter_plain proper.plain]
      exact characters_literal text
  | oneOf listed =>
      have inside : (listed ++ [']']).filter standsForItself = listed := by
        rw [List.filter_append, filter_plain proper.plain]
        exact List.append_nil listed
      exact (characters_one_of listed).trans inside.symm
  | placeholder name => cases plain

theorem Part.characters_regexes {parts : List Part} (proper : ∀ part ∈ parts, part.Proper)
    (plain : ∀ part ∈ parts, part.name? = none) :
    (parts.map (Part.regex .silent)).flatMap characters =
      (parts.flatMap Part.print).filter standsForItself := by
  rw [List.flatMap_map, List.filter_flatMap]
  exact List.flatMap_congr fun part member =>
    characters_regex (proper part member) (plain part member)

theorem Component.characters_parts_regex {parts : List Part} (proper : ∀ part ∈ parts, part.Proper)
    (plain : ∀ part ∈ parts, part.name? = none) (isLast : Bool) :
    (partsRegex .silent isLast parts).characters =
      (parts.flatMap Part.print).filter standsForItself := by
  rw [← Part.characters_regexes proper plain, partsRegex]
  split
  · rename_i before stem dotted
    rw [parts_of_dotted dotted, characters_concat, List.map_append, List.flatMap_append,
      List.flatMap_append]
    simp [Part.regex, characters_literal, optionalSuffix, anyCharacters, Regex.characters]
  · rw [characters_concat]

namespace Glob

theorem characters_component_regexes {components : List Component}
    (proper : ∀ component ∈ components, component.Proper)
    (plain : ∀ component ∈ components, ∀ part ∈ component.parts, part.name? = none)
    (due opening : Bool) :
    ((componentRegexes .silent due opening components).flatMap characters).filter (· != '/') =
      (components.flatMap Component.print).filter standsForItself := by
  have separators :
      ∀ due : Bool, ((separatorIf due).flatMap characters).filter (· != '/') = [] := by
    decide
  have unslashed : ∀ text : Text,
      (text.filter standsForItself).filter (· != '/') = text.filter standsForItself := by
    intro text
    rw [List.filter_filter]
    apply List.filter_congr
    intro character _
    by_cases slash : character = '/'
    · subst slash
      decide
    · simp [slash]
  induction components generalizing due opening with
  | nil => rfl
  | cons component rest ih =>
      rw [List.forall_mem_cons] at proper plain
      have others := ih proper.2 plain.2
      cases component with
      | globstar =>
          have wildcard : ((anyDirectories :: if rest.isEmpty then [wholeSegment] else []).flatMap
              characters).filter (· != '/') = [] := by
            cases rest.isEmpty <;> decide
          rw [componentRegexes, List.flatMap_append, List.flatMap_append, List.filter_append,
            List.filter_append, separators, wildcard, others, List.flatMap_cons, List.filter_append]
          rfl
      | literal text =>
          have spelled : text.filter standsForItself = text := filter_plain proper.1.spelled
          have free := unslashed text
          rw [spelled] at free
          rw [componentRegexes, List.flatMap_append, List.flatMap_cons, List.filter_append,
            List.filter_append, separators, characters_literal, others, free, List.flatMap_cons,
            List.filter_append, Component.print, spelled, List.nil_append]
      | compound parts =>
          rw [componentRegexes, List.flatMap_append, List.flatMap_cons, List.filter_append,
            List.filter_append, separators,
            Component.characters_parts_regex proper.1.spelled.2 plain.1, unslashed, others,
            List.flatMap_cons, List.filter_append, Component.print, List.nil_append]

theorem characters_regex {glob : Glob} (proper : glob.Proper) (plain : glob.placeholders = [])
    (mode : CaseMode) :
    (glob.regex mode .silent).characters.filter (· != '/') = glob.print.filter standsForItself := by
  have unnamed : ∀ component ∈ glob.components, ∀ part ∈ component.parts, part.name? = none := by
    intro component member part among
    exact List.filterMap_eq_nil_iff.mp plain part (List.mem_flatMap.mpr ⟨component, member, among⟩)
  have inComponents := characters_component_regexes proper.components unnamed true (!glob.rooted)
  have start : ∀ rooted : Bool,
      ((if rooted then [Regex.textStart] else []).flatMap characters).filter (· != '/') =
        [] := by decide
  have root :
      ∀ rooted : Bool, (if rooted then ['/'] else []).filter standsForItself = [] := by decide
  rw [regex, characters_under_case, characters_concat, List.flatMap_append, List.flatMap_append,
    List.filter_append, List.filter_append, start, inComponents, print, List.filter_append, root,
    filter_join_with (by decide), List.flatMap_def]
  exact List.append_nil _

end Glob

theorem Pattern.characters_choice (first : Branch) (branches : List Branch) :
    (regex.choice first branches).characters =
      (first :: branches).flatMap fun branch => branch.regex.characters := by
  induction branches generalizing first with
  | nil => exact (List.flatMap_singleton ..).symm
  | cons second branches ih =>
      rw [regex.choice, Regex.characters, ih, List.flatMap_cons]
      rfl

theorem Pattern.characters_branches (pattern : Pattern) :
    pattern.regex.characters = pattern.branches.flatMap fun branch => branch.regex.characters := by
  rw [regex]
  split
  · rename_i none
    rw [none]
    rfl
  · rename_i only same
    rw [same, List.flatMap_singleton]
  · rename_i first rest _ same
    rw [same, characters_choice]

theorem Pattern.characters_regex {pattern : Pattern} (proper : pattern.Proper) :
    pattern.regex.characters.filter (· != '/') = pattern.text.filter standsForItself := by
  rw [characters_branches, text, filter_join_with (by decide), ← List.flatMap_def,
    List.filter_flatMap, List.filter_flatMap]
  apply List.flatMap_congr
  intro branch member
  have parsed := proper.parsed branch member
  rw [parsed.text_eq]
  exact Glob.characters_regex parsed.proper parsed.plain branch.mode

end Characters

namespace Pattern

/--
The written expression of a pattern can be read again, and what is read is found in a rooted path
exactly when the pattern matches. Apart from separators it compares with the characters of the text
that stand for themselves, all of them and in their order, so none of these is read as anything
else.
-/
theorem written_expression_faithful {pattern : Pattern} (built : pattern.Built) :
    ∃ expression, Regex.read pattern.regex.print = some expression ∧
      (∀ path, Path.startsAtRoot path = true →
        (pattern.matchesPath path = true ↔ expression.found (Path.normalize path) = true)) ∧
      expression.characters.filter (· != '/') = pattern.text.filter standsForItself := by
  have proper := built.proper
  rcases pattern.read_regex with ⟨expression, read⟩
  refine ⟨expression, read.read_print, ?_, ?_⟩
  · intro path rooted
    rw [matches_iff_found proper.nonempty rooted, found_congr _ read.takes]
  · rw [read.characters, characters_regex proper]

/--
The pattern `a+(b` without regard to case, combined with the pattern `/[.$]c.*` with regard to it.
-/
theorem written_expression_faithful_mixed :
    ∃ first second, compile .lenient ['a', '+', '(', 'b'] .insensitive = .ok first ∧
      compile .lenient ['/', '[', '.', '$', ']', 'c', '.', '*'] .sensitive = .ok second ∧
      ∃ union after, Handle.combine [some ⟨1, first⟩, some ⟨2, second⟩] ⟨3⟩ = .ok (union, after) ∧
        ∃ expression, Regex.read union.pattern.regex.print = some expression ∧
          (union.pattern.matchesPath ['/', 'A', '+', '(', 'B'] = true ↔
            expression.found ['/', 'A', '+', '(', 'B'] = true) ∧
          expression.characters.filter (· != '/') =
            ['a', '+', '(', 'b', '.', '$', 'c', '.'] := by
  have first : compile .lenient ['a', '+', '(', 'b'] .insensitive =
      .ok ⟨[⟨⟨false, [.literal ['a', '+', '(', 'b']]⟩, .insensitive⟩]⟩ := by decide +kernel
  have second : compile .lenient ['/', '[', '.', '$', ']', 'c', '.', '*'] .sensitive =
      .ok ⟨[⟨⟨true, [.compound [.oneOf ['.', '$'], .literal ['c', '.'], .star]]⟩,
        .sensitive⟩]⟩ := by
    decide +kernel
  have combined : Handle.combine
      [some ⟨1, ⟨[⟨⟨false, [.literal ['a', '+', '(', 'b']]⟩, .insensitive⟩]⟩⟩,
        some
          ⟨2,
            ⟨[⟨⟨true, [.compound [.oneOf ['.', '$'], .literal ['c', '.'], .star]]⟩, .sensitive⟩]⟩⟩]
      ⟨3⟩ = .ok
        (⟨3, ⟨[⟨⟨false, [.literal ['a', '+', '(', 'b']]⟩, .insensitive⟩,
          ⟨⟨true, [.compound [.oneOf ['.', '$'], .literal ['c', '.'], .star]]⟩, .sensitive⟩]⟩⟩,
            ⟨4⟩) := by
    decide +kernel
  have built : ∀ entry, some entry ∈
      [some ⟨1, ⟨[⟨⟨false, [.literal ['a', '+', '(', 'b']]⟩, .insensitive⟩]⟩⟩,
        some (⟨2, ⟨[⟨⟨true, [.compound [.oneOf ['.', '$'], .literal ['c', '.'], .star]]⟩,
          .sensitive⟩]⟩⟩ : Handle)] → entry.pattern.Built := by
    intro entry member
    simp only [List.mem_cons, Option.some.injEq, List.not_mem_nil, or_false] at member
    rcases member with rfl | rfl
    · exact .compiled first
    · exact .compiled second
  rcases written_expression_faithful (.combined built combined) with ⟨expression, read, found, same⟩
  refine ⟨_, _, first, second, _, _, combined, expression, read, found _ (by decide), ?_⟩
  rw [same]
  decide +kernel

end Pattern

end PathGlob
