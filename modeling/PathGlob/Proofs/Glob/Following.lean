import Mathlib.Data.List.Lex
import PathGlob.Proofs.Glob.Preference

/-!
# Following the expressions of a glob

Goes through the parts of a segment and the components of a glob and shows at each that what the
search comes to is what the first division reports. A component is due a separator or stands behind
one, as in the description of what globs accept. What follows a segment fails wherever the segment
is not over, so a part can be tried too short without harm.
-/
namespace PathGlob

set_option autoImplicit false

open Regex

variable {mode : CaseMode}

abbrev Choices.Before : List Choice → List Choice → Prop := List.Lex Choice.Before

theorem Choices.before_append (first : List Choice) {left right : List Choice}
    (earlier : Choices.Before left right) : Choices.Before (first ++ left) (first ++ right) :=
  List.Lex.append_left _ earlier first

theorem CaseMode.Agrees.length_eq {text taken : Text} (agrees : mode.Agrees text taken) :
    taken.length = text.length := (List.Forall₂.length_eq agrees).symm

namespace Part

open PathGlob.Glob

theorem nameless_literal (text : Text) : (Regex.literal text).Nameless := by
  have foldl : ∀ (start : Regex),
      start.Nameless → ((text.map .character).foldl .sequence start).Nameless := by
    induction text with
    | nil => exact fun start nameless => nameless
    | cons first text ih => exact fun start nameless => ih _ ⟨nameless, trivial⟩
  exact foldl .empty trivial

theorem nameless_one_of (characters : Text) : (Regex.oneOf characters).Nameless := by
  induction characters with
  | nil => trivial
  | cons first rest ih =>
      cases rest with
      | nil => trivial
      | cons second rest => exact ⟨trivial, ih⟩

/-- The characters of a segment that an expression takes are a prefix of the segment. -/
theorem prefix_of_free {text after taken left : Text} (boundary : AtBoundary after)
    (free : '/' ∉ taken) (same : text ++ after = taken ++ left) :
    ∃ rest, text = taken ++ rest ∧ left = rest ++ after := by
  rcases List.append_eq_append_iff.mp same with ⟨gap, rfl, behind⟩ | ⟨gap, rfl, behind⟩
  · cases gap with
    | nil => exact ⟨[], by simp, behind.symm⟩
    | cons first gap =>
        rcases boundary with rfl | ⟨rest, rfl⟩
        · cases behind
        · cases behind
          simp at free
  · exact ⟨gap, rfl, behind⟩

section Trying

variable {part : Part} {next : Thread → Option Captures} {after text : Text} {thread : Thread}
  {others : Text → List Choice → Prop}

/--
What follows a part reports what it takes of the rest of a segment, behind what the part reports.
-/
def Continues (part : Part) (next : Thread → Option Captures) (thread : Thread) (text after : Text)
    (others : Text → List Choice → Prop) : Prop :=
  ∀ stretch left, text = stretch ++ left → ∀ later : Thread, later.rest = left ++ after →
    later.captures = thread.captures ++ captured (part.choices stretch) →
      FirstOf Choices.Before (others left) (fun more => later.captures ++ captured more)
        (next later)

def Taking (part : Part) (text : Text) (others : Text → List Choice → Prop) (stretch : Text)
    (choices : List Choice) : Prop :=
  ∃ left more, text = stretch ++ left ∧ choices = part.choices stretch ++ more ∧ others left more

theorem Continues.taking (continues : Continues part next thread text after others)
    {stretch left : Text} (same : text = stretch ++ left) {later : Thread}
    (rest : later.rest = left ++ after)
    (captures : later.captures = thread.captures ++ captured (part.choices stretch)) :
    FirstOf Choices.Before (Taking part text others stretch)
      (fun choices => thread.captures ++ captured choices)
      (next later) := by
  have first := continues stretch left same later rest captures
  simp only [captures, List.append_assoc, ← captured_append] at first
  have embedded := FirstOf.image (fun choices => thread.captures ++ captured choices)
    (part.choices stretch ++ ·) (fun _ _ => Choices.before_append (part.choices stretch)) first
  refine embedded.congr fun choices => ⟨?_, ?_⟩
  · rintro ⟨more, fits, rfl⟩
    exact ⟨left, more, same, rfl, fits⟩
  · rintro ⟨other, more, otherSame, rfl, fits⟩
    rw [← List.append_cancel_left (same.symm.trans otherSame)] at fits
    exact ⟨more, fits, rfl⟩

theorem find_fixed_first (readable : part.Readable) (nameless : (part.regex .named).Nameless)
    (fixed : ∀ taken other : Text, part.Describes mode taken → part.Describes mode other →
      taken.length = other.length)
    (silent : ∀ taken, part.choices taken = []) (boundary : AtBoundary after) (free : '/' ∉ text)
    (rest : thread.rest = text ++ after)
    (continues : Continues part next thread text after others) :
    FirstOf Choices.Before
      (fun choices => ∃ stretch, part.Describes mode stretch ∧
        Taking part text others stretch choices)
      (fun choices => thread.captures ++ captured choices)
      ((advance mode (part.regex .named) thread).findSome? next) := by
  refine (find_just_first nameless (takes_just_regex mode .named readable)
    (fun taken other _ _ _ _ first second => fixed taken other first.2 second.2)
    (Taking part text others) ?_).congr fun choices => ⟨?_, ?_⟩
  · intro taken left same described
    obtain ⟨gap, split, rfl⟩ := prefix_of_free boundary described.1 (rest.symm.trans same)
    exact continues.taking split (Thread.skip_rest_eq same) (by simp [silent])
  · rintro ⟨taken, left, -, described, fits⟩
    exact ⟨taken, described.2, fits⟩
  · rintro ⟨taken, described, left, more, rfl, same, fits⟩
    rw [List.mem_append, not_or] at free
    exact ⟨taken, left ++ after, by rw [rest, List.append_assoc], ⟨free.1, described⟩, left, more,
      rfl, same, fits⟩

/-- A wildcard takes as few characters as what follows admits. -/
theorem find_wildcard_first {name? : Option Text}
    (choices : ∀ taken, part.choices taken = [.characters name? taken])
    (describes : ∀ taken, part.Describes mode taken ↔ taken ≠ [] ∧ ':' ∉ taken)
    {tries : Thread → Option Captures} (blind : Blind tries) (boundary : AtBoundary after)
    (free : '/' ∉ text) (rest : thread.rest = text ++ after)
    (each : ∀ taken left, text = taken ++ left →
      FirstOf Choices.Before (Taking part text others taken)
      (fun choices => thread.captures ++ captured choices) (tries (thread.skip taken.length))) :
    FirstOf Choices.Before
      (fun choices => ∃ stretch, part.Describes mode stretch ∧
        Taking part text others stretch choices)
      (fun choices => thread.captures ++ captured choices)
        ((advance mode anyCharacters thread).findSome? tries) := by
  refine (any_characters_first (Taking part text others) blind boundary free rest
    (fun taken left same _ _ => each taken left same) ?_).congr fun choices => ⟨?_, ?_⟩
  · rintro taken other left right shorter ⟨-, more, -, rfl, -⟩ ⟨-, further, -, rfl, -⟩
    rw [choices, choices]
    exact .rel shorter
  · rintro ⟨taken, left, -, nonempty, noColon, fits⟩
    exact ⟨taken, (describes taken).mpr ⟨nonempty, noColon⟩, fits⟩
  · rintro ⟨taken, described, left, more, same, fits⟩
    obtain ⟨nonempty, noColon⟩ := (describes taken).mp described
    exact ⟨taken, left, same, nonempty, noColon, left, more, same, fits⟩

/-- What a part takes is tried in the order of its choices. -/
theorem find_first (readable : part.Readable) (blind : Blind next) (boundary : AtBoundary after)
    (free : '/' ∉ text) (rest : thread.rest = text ++ after)
    (continues : Continues part next thread text after others) :
    FirstOf Choices.Before
      (fun choices => ∃ stretch, part.Describes mode stretch ∧
        Taking part text others stretch choices)
      (fun choices => thread.captures ++ captured choices)
      ((advance mode (part.regex .named) thread).findSome? next) := by
  have behind : ∀ {taken left : Text},
      text = taken ++ left → (thread.skip taken.length).rest = left ++ after :=
    fun same => Thread.skip_rest_eq (by rw [rest, same, List.append_assoc])
  cases part with
  | literal run =>
      apply find_fixed_first readable (nameless_literal run) _
        (fun _ => rfl) boundary free rest continues
      intro taken other first second
      rw [first.length_eq, second.length_eq]
  | oneOf characters =>
      apply find_fixed_first readable (nameless_one_of characters) _
        (fun _ => rfl) boundary free rest continues
      rintro taken other ⟨one, -, first⟩ ⟨another, -, second⟩
      rw [first.length_eq, second.length_eq]
      rfl
  | star =>
      apply find_wildcard_first (fun _ => rfl) (fun _ => Iff.rfl) blind boundary free rest
      intro taken left same
      exact continues.taking same (behind same) (List.append_nil _).symm
  | placeholder name =>
      have blindReport : Blind (next ∘ thread.close name) := fun left right =>
        blind (thread.close name left) (thread.close name right)
      rw [regex, advance, List.findSome?_map]
      apply find_wildcard_first (fun _ => rfl) (fun _ => Iff.rfl) blindReport boundary free rest
      intro taken left same
      have closed : (thread.close name (thread.skip taken.length)).rest = left ++ after :=
        behind same
      apply continues.taking same closed
      simp [Thread.close, rest, same, choices, captured, Choice.capture?]

end Trying

def Dividing (mode : CaseMode) (parts : List Part) (text : Text)
    (others : Text → List Choice → Prop) (choices : List Choice) : Prop :=
  ∃ taken left first more, text = taken ++ left ∧ choices = first ++ more ∧
    DivideAll mode parts taken first ∧ others left more

theorem dividing_cons_iff (part : Part) (parts : List Part) (text : Text)
    (others : Text → List Choice → Prop) (choices : List Choice) :
    Dividing mode (part :: parts) text others choices ↔
      ∃ stretch, part.Describes mode stretch ∧
        Taking part text (fun left => Dividing mode parts left others) stretch choices := by
  constructor
  · rintro ⟨-, left, -, more, rfl, rfl,
      ⟨stretch, rest, further, rfl, rfl, described, divided⟩, fits⟩
    exact ⟨stretch, described, rest ++ left, further ++ more, List.append_assoc ..,
      List.append_assoc ..,
      rest, left, further, more, rfl, rfl, divided, fits⟩
  · rintro ⟨stretch, described, -, -, rfl, rfl, rest, left, further, more, rfl, rfl, divided, fits⟩
    exact ⟨stretch ++ rest, left, part.choices stretch ++ further, more,
      (List.append_assoc ..).symm,
      (List.append_assoc ..).symm, ⟨stretch, rest, further, rfl, rfl, described, divided⟩, fits⟩

/-- Parts are followed in the order of their divisions, each with what comes behind them. -/
theorem follow_first {parts : List Part} (readable : ∀ part ∈ parts, part.Readable)
    {next : Thread → Option Captures} (blind : Blind next) {after : Text}
    (boundary : AtBoundary after)
    {others : Text → List Choice → Prop}
    (ends : ∀ (later : Thread) (left : Text), later.rest = left ++ after → '/' ∉ left →
      FirstOf Choices.Before (others left) (fun more => later.captures ++ captured more)
        (next later))
    {thread : Thread} {text : Text} (free : '/' ∉ text) (rest : thread.rest = text ++ after) :
    FirstOf Choices.Before (Dividing mode parts text others)
      (fun choices => thread.captures ++ captured choices)
      (follow mode (parts.map (Part.regex .named)) next thread) := by
  induction parts generalizing thread text with
  | nil =>
      refine (ends thread text rest free).congr fun choices => ⟨?_, ?_⟩
      · intro fits
        exact ⟨[], text, [], choices, rfl, rfl, ⟨rfl, rfl⟩, fits⟩
      · rintro ⟨taken, left, first, more, rfl, rfl, ⟨rfl, rfl⟩, fits⟩
        exact fits
  | cons part parts ih =>
      obtain ⟨firstReadable, partsReadable⟩ := List.forall_mem_cons.mp readable
      have continues :
          Continues part (follow mode (parts.map (Part.regex .named)) next) thread text after
          fun left => Dividing mode parts left others := by
        rintro stretch left rfl later laterRest -
        rw [List.mem_append, not_or] at free
        exact ih partsReadable free.2 laterRest
      refine (find_first firstReadable (blind.follow _) boundary free rest continues).congr ?_
      exact fun choices => (dividing_cons_iff ..).symm

end Part

namespace Glob

open PathGlob.Path

theorem blind_components (due opening : Bool) (components : List Component) :
    Blind (follow mode (componentRegexes .named due opening components) finish) :=
  blind_finish.follow _

theorem find_separator {next : Thread → Option Captures} {thread : Thread} {after : Text}
    (rest : thread.rest = '/' :: after) :
    (advance mode (.character '/') thread).findSome? next = next (thread.skip 1) := by
  rw [advance, Thread.take_eq, rest, List.head?_cons, Option.any_some, CaseMode.agree_refl,
    if_pos rfl]
  exact List.findSome?_singleton

theorem follow_inside_segment {thread : Thread} (inside : ¬AtBoundary thread.rest)
    (components : List Component) :
    follow mode (componentRegexes .named true false components) finish thread = none := by
  obtain ⟨next, more, rest⟩ := List.exists_cons_of_ne_nil fun ended => inside (.inl ended)
  cases components with
  | nil => rw [componentRegexes, follow, finish, rest, List.isEmpty_cons, if_neg Bool.false_ne_true]
  | cons component components =>
      have other : mode.agree '/' next = false := by
        rw [Bool.eq_false_iff, Ne, CaseMode.agree_unfolded_left_iff mode (by decide)]
        intro slash
        exact inside (.inr ⟨more, by rw [rest, slash]⟩)
      rw [component_regexes_due, follow, advance, Thread.take_eq, rest, List.head?_cons,
        Option.any_some, other]
      rfl

theorem find_suffix_first {thread : Thread} {left : Text} {segments : List Text} (free : '/' ∉ left)
    (rest : thread.rest = left ++ slashed segments) :
    FirstOf Choices.Before (fun more => more = [] ∧ segments = [] ∧ IsSuffix left)
      (fun more => thread.captures ++ captured more)
        ((advance mode optionalSuffix thread).findSome? finish) := by
  have nameless : optionalSuffix.Nameless := ⟨trivial, trivial⟩
  refine (find_finish_first nameless (fun more => thread.captures ++ captured more) []
    (List.append_nil _)).congr fun more => and_congr_right' ?_
  rw [takes_just_optional_suffix mode, rest]
  cases segments with
  | nil => simp [free]
  | cons segment segments => simp

def FollowsDue (mode : CaseMode) (components : List Component) (segments : List Text) : Prop :=
  ∀ thread : Thread, thread.rest = slashed segments →
    FirstOf Choices.Before (Divides mode components segments)
      (fun choices => thread.captures ++ captured choices)
      (follow mode (componentRegexes .named true false components) finish thread)

def FollowsBehind (mode : CaseMode) (components : List Component) (segment : Text)
    (segments : List Text) : Prop :=
  ∀ thread : Thread, thread.rest = segment ++ slashed segments →
    FirstOf Choices.Before (Divides mode components (segment :: segments))
      (fun choices => thread.captures ++ captured choices)
      (follow mode (componentRegexes .named false false components) finish thread)

/-- Parts take all of a segment, since the other components fail inside it. -/
theorem follow_segment_first {parts : List Part} (readable : ∀ part ∈ parts, part.Readable)
    {rest : List Component} {segments : List Text} (due : FollowsDue mode rest segments)
    {thread : Thread}
    {segment : Text} (free : '/' ∉ segment) (here : thread.rest = segment ++ slashed segments) :
    FirstOf Choices.Before (fun choices => ∃ first more, choices = first ++ more ∧
        Part.DivideAll mode parts segment first ∧ Divides mode rest segments more)
      (fun choices => thread.captures ++ captured choices)
      (follow mode (parts.map (Part.regex .named))
        (follow mode (componentRegexes .named true false rest) finish)
        thread) := by
  have ends : ∀ (later : Thread) (left : Text), later.rest = left ++ slashed segments → '/' ∉ left →
      FirstOf Choices.Before (fun more => left = [] ∧ Divides mode rest segments more)
        (fun more => later.captures ++ captured more)
        (follow mode (componentRegexes .named true false rest) finish later) := by
    intro later left laterRest leftFree
    cases left with
    | nil => exact (due later laterRest).congr fun more => (and_iff_right rfl).symm
    | cons first left =>
        apply FirstOf.of_eq_none _ fun more both => List.cons_ne_nil _ _ both.1
        apply follow_inside_segment
        rw [laterRest]
        rintro (ended | ⟨more, slash⟩)
        · cases ended
        · cases slash
          simp at leftFree
  refine (Part.follow_first readable (blind_components true false rest)
    (at_boundary_slashed segments) ends free
    here).congr fun choices => ⟨?_, ?_⟩
  · rintro ⟨taken, left, first, more, rfl, rfl, divided, rfl, others⟩
    exact ⟨first, more, rfl, by rwa [List.append_nil], others⟩
  · rintro ⟨first, more, rfl, divided, others⟩
    exact ⟨segment, [], first, more, (List.append_nil _).symm, rfl, divided, rfl, others⟩

theorem follows_literal {text : Text} (spelled : (Component.literal text).Spelled)
    {rest : List Component} {segments : List Text} (due : FollowsDue mode rest segments)
    {segment : Text} (free : '/' ∉ segment) :
    FollowsBehind mode (.literal text :: rest) segment segments := by
  intro thread here
  have readable : ∀ part ∈ [Part.literal text], part.Readable := by
    intro part member
    obtain rfl := List.mem_singleton.mp member
    exact fun slash => absurd (spelled '/' slash) (by decide)
  refine (follow_segment_first readable due free here).congr fun choices => ?_
  rw [divides_literal_iff]
  constructor
  · rintro ⟨-, more, rfl, ⟨stretch, -, -, rfl, rfl, agrees, rfl, rfl⟩, others⟩
    rw [List.append_nil]
    exact ⟨agrees, others⟩
  · rintro ⟨agrees, others⟩
    exact ⟨[], choices, rfl, ⟨segment, [], [], (List.append_nil _).symm, rfl, agrees, rfl, rfl⟩,
      others⟩

theorem follows_compound {parts : List Part} (proper : ∀ part ∈ parts, part.Proper)
    {rest : List Component} {segments : List Text} (due : FollowsDue mode rest segments)
    {segment : Text} (free : '/' ∉ segment) :
    FollowsBehind mode (.compound parts :: rest) segment segments := by
  intro thread here
  have blind : Blind (follow mode (componentRegexes .named true false rest) finish) :=
    blind_components true false rest
  have opened : componentRegexes .named false false (.compound parts :: rest) =
      Component.partsRegex .named rest.isEmpty parts :: componentRegexes .named true false
        rest := rfl
  rw [opened, follow]
  unfold Component.partsRegex
  split
  · rename_i before stem dotted
    cases rest with
    | cons => cases dotted
    | nil =>
        have readable := Component.readable_of_dotted proper dotted
        have regexes : before.map (Part.regex .named) ++ [Regex.literal stem, optionalSuffix] =
            (before ++ [Part.literal stem]).map (Part.regex .named) ++ [optionalSuffix] := by
          simp [Part.regex]
        rw [regexes, find_concat blind, follow_append]
        refine (Part.follow_first readable (blind_finish.follow [optionalSuffix])
          (at_boundary_slashed segments)
          (fun later left laterRest leftFree => find_suffix_first leftFree laterRest) free
            here).congr fun choices => ?_
        rw [divides_compound_iff]
        constructor
        · rintro ⟨bare, suffix, first, more, rfl, rfl, divided, rfl, rfl, isSuffix⟩
          exact ⟨first, [], rfl,
            (Component.divides_dotted_iff dotted _ _).mpr ⟨bare, suffix, rfl, divided, isSuffix⟩,
            .nothing⟩
        · rintro ⟨first, more, rfl, divides, ended⟩
          obtain ⟨rfl, rfl⟩ := (divides_nothing_iff _ _).mp ended
          obtain ⟨bare, suffix, rfl, divided, isSuffix⟩ :=
            (Component.divides_dotted_iff dotted _ _).mp divides
          exact ⟨bare, suffix, first, [], rfl, rfl, divided, rfl, rfl, isSuffix⟩
  · rename_i plain
    have readable : ∀ part ∈ parts, part.Readable :=
      fun part member => (proper part member).readable
    rw [find_concat blind]
    refine (follow_segment_first readable due free here).congr fun choices => ?_
    simp only [divides_compound_iff, Component.divides_plain_iff plain]

theorem follows_last_globstar {segment : Text} {segments : List Text}
    (named : ∀ name ∈ segment :: segments, IsName name) :
    FollowsBehind mode [.globstar] segment segments := by
  intro thread here
  have opened :
      componentRegexes .named false false [.globstar] = [anyDirectories, wholeSegment] := rfl
  have nameless : (concat [anyDirectories, wholeSegment]).Nameless := by
    simp [concat, Nameless, anyDirectories, wholeSegment]
  rw [opened, ← find_concat blind_finish]
  refine (find_finish_first nameless (fun choices => thread.captures ++ captured choices)
    [.segments (segment :: segments)] (List.append_nil _)).congr fun choices => ?_
  have takes : Takes mode (concat [anyDirectories, wholeSegment]) thread.front
      (segment ++ slashed segments) [] ↔ ∀ name ∈ segment :: segments, ':' ∉ name := by
    rw [← takes_last_globstar_iff named thread.front, takes_concat_cons_iff]
    exact both_congr_right fun left right _ =>
      takes_concat_singleton_iff mode wholeSegment _ right []
  rw [here, takes, divides_globstar_iff]
  constructor
  · rintro ⟨rfl, noColon⟩
    exact ⟨_, [], [], (List.append_nil _).symm, rfl, fun _ => List.cons_ne_nil _ _, noColon,
      .nothing⟩
  · rintro ⟨taken, others, more, same, rfl, -, noColon, ended⟩
    obtain ⟨rfl, rfl⟩ := (divides_nothing_iff _ _).mp ended
    rw [List.append_nil] at same
    exact ⟨by rw [same], same ▸ noColon⟩

/-- `**` is tried with as many segments as there are, and then with fewer. -/
theorem follows_globstar {rest : List Component} (inner : rest ≠ [])
    (behind : ∀ segment segments, (∀ name ∈ segment :: segments, IsName name) →
      FollowsBehind mode rest segment segments)
    {segment : Text} {segments : List Text} (named : ∀ name ∈ segment :: segments, IsName name) :
    FollowsBehind mode (.globstar :: rest) segment segments := by
  intro thread here
  have plain : ∀ name ∈ segment :: segments, name ≠ [] ∧ '/' ∉ name := fun name member =>
    ⟨(named name member).nonempty, (named name member).slash_not_mem⟩
  have opened : componentRegexes .named false false (.globstar :: rest) =
      anyDirectories :: componentRegexes .named false false rest := by
    rw [componentRegexes, List.isEmpty_eq_false_iff.mpr inner]
    rfl
  rw [opened, follow]
  refine (any_directories_first
    (fun taken choices => ∃ others more, segment :: segments = taken ++ others ∧
      choices = .segments taken :: more ∧ Divides mode rest others more)
    (blind_components false false rest) plain here ?_ ?_).congr fun choices => ?_
  · intro taken last others same noColon later laterRest captures
    have laterNamed : ∀ name ∈ last :: others, IsName name := fun name member =>
      named name (same ▸ List.mem_append_right taken member)
    have first := behind last others laterNamed later laterRest
    rw [captures] at first
    refine (first.image (fun choices => thread.captures ++ captured choices) (.segments taken :: ·)
      fun _ _ => List.Lex.cons).congr fun choices => ⟨?_, ?_⟩
    · rintro ⟨more, divides, rfl⟩
      exact ⟨last :: others, more, same, rfl, divides⟩
    · rintro ⟨rest, more, otherSame, rfl, divides⟩
      rw [← List.append_cancel_left (same.symm.trans otherSame)] at divides
      exact ⟨more, divides, rfl⟩
  · rintro taken other left right fewer ⟨-, more, -, rfl, -⟩ ⟨-, further, -, rfl, -⟩
    exact .rel fewer
  · rw [divides_globstar_iff]
    constructor
    · rintro ⟨taken, -, -, -, noColon, others, more, same, rfl, divides⟩
      exact ⟨taken, others, more, same, rfl, fun none => absurd none inner, noColon, divides⟩
    · rintro ⟨taken, others, more, same, rfl, -, noColon, divides⟩
      cases others with
      | nil => exact absurd divides (not_divides_nil inner more)
      | cons last others =>
          exact ⟨taken, last, others, same, noColon, last :: others, more, same, rfl, divides⟩

theorem follows_due_of_behind {components : List Component}
    (behind : ∀ segment segments, (∀ name ∈ segment :: segments, IsName name) →
      FollowsBehind mode components segment segments)
    {segments : List Text} (named : ∀ name ∈ segments, IsName name) :
    FollowsDue mode components segments := by
  intro thread here
  cases components with
  | nil =>
      cases segments with
      | nil =>
          have ended :
              follow mode (componentRegexes .named true false []) finish thread =
                some thread.captures :=
            if_pos (by rw [here]; rfl)
          rw [ended]
          exact ⟨[], .nothing, List.append_nil _, fun other divides =>
            .inl ((divides_nothing_iff _ _).mp divides).2⟩
      | cons segment segments =>
          have left : follow mode (componentRegexes .named true false []) finish thread = none :=
            if_neg (by simp [here])
          rw [left]
          exact fun choices divides => List.cons_ne_nil _ _ ((divides_nothing_iff _ _).mp divides).1
  | cons component rest =>
      rw [component_regexes_due, follow]
      cases segments with
      | nil =>
          rw [advance, Thread.take_eq, here]
          exact not_divides_nil (List.cons_ne_nil _ _)
      | cons segment segments =>
          rw [slashed_cons] at here
          rw [find_separator here]
          exact behind segment segments named (thread.skip 1) (by rw [Thread.skip_rest, here]; rfl)

/-- Behind a separator, components come to what the first division of the segments reports. -/
theorem follows_behind {components : List Component}
    (proper : ∀ component ∈ components, component.Proper) {segment : Text} {segments : List Text}
    (named : ∀ name ∈ segment :: segments, IsName name) :
    FollowsBehind mode components segment segments := by
  induction components generalizing segment segments with
  | nil =>
      intro thread here
      obtain ⟨first, others, rfl⟩ :=
        List.exists_cons_of_ne_nil (named segment List.mem_cons_self).nonempty
      have left : follow mode (componentRegexes .named false false []) finish thread = none :=
        if_neg (by simp [here])
      rw [left]
      exact fun choices divides => List.cons_ne_nil _ _ ((divides_nothing_iff _ _).mp divides).1
  | cons component rest ih =>
      obtain ⟨firstProper, restProper⟩ := List.forall_mem_cons.mp proper
      obtain ⟨firstNamed, laterNamed⟩ := List.forall_mem_cons.mp named
      have behind : ∀ segment segments, (∀ name ∈ segment :: segments, IsName name) →
          FollowsBehind mode rest segment segments := fun segment segments => ih restProper
      have due := follows_due_of_behind behind laterNamed
      cases component with
      | literal text => exact follows_literal firstProper.spelled due firstNamed.slash_not_mem
      | compound parts => exact follows_compound firstProper.spelled.2 due firstNamed.slash_not_mem
      | globstar =>
          cases rest with
          | nil => exact follows_last_globstar named
          | cons second rest => exact follows_globstar (List.cons_ne_nil _ _) behind named

theorem follows_due {components : List Component}
    (proper : ∀ component ∈ components, component.Proper) {segments : List Text}
    (named : ∀ name ∈ segments, IsName name) : FollowsDue mode components segments :=
  follows_due_of_behind (fun _ _ named => follows_behind proper named) named

end Glob

end PathGlob
