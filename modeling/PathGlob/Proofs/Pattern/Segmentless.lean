import PathGlob.Proofs.Path.Joining
import PathGlob.Proofs.Pattern.Identity
import PathGlob.Proofs.Pattern.Matching

/-!
# Paths without segments

Every part of a glob takes a character at least, and every component is due a separator in front, so
a path without segments should not be described by anything. The one way out is a last component
`.*`: its dot and star are optional together, and nothing stands before them. A pattern is shown to
match such a path exactly when a branch is made of this component alone, or of `**` and it.
-/
namespace PathGlob

set_option autoImplicit false

/-- The component `.*`, an optional suffix with nothing that it could be the suffix of. -/
def Component.bareSuffix : Component := .compound [.literal ['.'], .star]

def Glob.TakesNothing (glob : Glob) : Prop :=
  glob.components = [Component.bareSuffix] ∨ glob.components = [.globstar, Component.bareSuffix]

namespace Part

theorem Proper.not_describes_nothing {part : Part} (proper : part.Proper) (mode : CaseMode) :
    ¬part.Describes mode [] := by
  intro described
  cases part with
  | star => exact described.1 rfl
  | literal text => exact proper.nonempty (List.forall₂_nil_right_iff.mp described)
  | oneOf characters =>
      obtain ⟨listed, -, agrees⟩ := described
      cases agrees
  | placeholder name => exact described.1 rfl

theorem describe_all_nothing_iff (mode : CaseMode) {parts : List Part}
    (proper : ∀ part ∈ parts, part.Proper) : DescribeAll mode parts [] ↔ parts = [] := by
  cases parts with
  | nil => simp [DescribeAll]
  | cons part parts =>
      constructor
      · intro described
        obtain ⟨stretch, rest, same, inFirst, -⟩ := described
        rw [(List.append_eq_nil_iff.mp same.symm).1] at inFirst
        exact absurd inFirst ((proper part List.mem_cons_self).not_describes_nothing mode)
      · intro none
        cases none

end Part

namespace Component

theorem describe_segment_nothing_iff (mode : CaseMode) (isLast : Bool) {parts : List Part}
    (nonempty : parts ≠ []) (proper : ∀ part ∈ parts, part.Proper) :
    DescribeSegment mode isLast parts [] ↔ isLast = true ∧ parts = [.literal ['.'], .star] := by
  rw [DescribeSegment, Part.describe_all_nothing_iff mode proper, or_iff_right nonempty]
  apply and_congr_right'
  constructor
  · intro dotted
    obtain ⟨before, stem, rfl, bare, suffix, same, described, -⟩ := dotted
    rw [(List.append_eq_nil_iff.mp same.symm).1, Part.describe_all_append_iff] at described
    obtain ⟨left, right, same, inBefore, inStem⟩ := described
    obtain ⟨rfl, rfl⟩ := List.append_eq_nil_iff.mp same.symm
    have beforeProper : ∀ part ∈ before, part.Proper := fun part member =>
      proper part (List.mem_append_left _ member)
    rw [Part.describe_all_nothing_iff mode beforeProper] at inBefore
    rw [Part.describe_all_singleton_iff] at inStem
    rw [inBefore, List.forall₂_nil_right_iff.mp inStem]
    rfl
  · intro same
    subst same
    exact ⟨[], [], rfl, [], [], rfl, ⟨[], [], rfl, .nil, rfl⟩, .inl rfl⟩

end Component

namespace Glob

open PathGlob.Path Regex

variable {mode : CaseMode} {reporting : Reporting}

theorem takes_due_nothing_iff {components : List Component} (before : Text) :
    Takes mode (concat (componentRegexes reporting true false components)) before [] [] ↔
    components = [] := by
  constructor
  · intro takes
    by_contra nonempty
    obtain ⟨rest, same⟩ := starts_with_slash_of_takes nonempty takes
    cases same
  · intro none
    subst none
    rfl

theorem both_nothing_iff (first second : Reading) (before after : Text) :
    Both first second before [] after ↔ first before [] after ∧ second before [] after := by
  constructor
  · intro both
    obtain ⟨left, right, same, inFirst, inSecond⟩ := both
    obtain ⟨rfl, rfl⟩ := List.append_eq_nil_iff.mp same.symm
    rw [List.append_nil] at inSecond
    exact ⟨inFirst, inSecond⟩
  · intro both
    exact ⟨[], [], rfl, both.1, by simpa using both.2⟩

/--
Behind a separator, a component of one segment takes nothing only if it is the last one, and `.*`.
-/
theorem takes_segment_nothing_iff {component : Component} (proper : component.Proper)
    (other : component ≠ .globstar) (rest : List Component) (before : Text) :
    Takes mode (concat (componentRegexes reporting false false (component :: rest))) before [] [] ↔
      component :: rest = [Component.bareSuffix] := by
  have first : ∀ regex : Regex, Takes mode
      (concat (regex :: componentRegexes reporting true false rest)) before [] [] ↔
        Takes mode regex before [] [] ∧ rest = [] := by
    intro regex
    rw [takes_concat_cons_iff, both_nothing_iff, takes_due_nothing_iff]
  cases component with
  | globstar => exact absurd rfl other
  | literal text =>
      have some : text ≠ [] := by
        intro none
        have busy := proper.busy
        rw [none] at busy
        cases busy
      have takes : ¬Takes mode (Regex.literal text) before [] [] := fun takes =>
        some (List.forall₂_nil_right_iff.mp ((takes_just_literal mode text before [] []).mp takes))
      refine (first _).trans ?_
      simp [takes, Component.bareSuffix]
  | compound parts =>
      have takes : Takes mode (Component.partsRegex reporting rest.isEmpty parts) before [] [] ↔
          '/' ∉ [] ∧ Component.DescribeSegment mode rest.isEmpty parts [] :=
        Component.takes_just_parts_regex mode reporting rest.isEmpty proper.spelled.2 before [] []
      refine (first _).trans ?_
      rw [takes, Component.describe_segment_nothing_iff mode _ proper.spelled.1 proper.spelled.2]
      simp +contextual [Component.bareSuffix, and_comm]

theorem takes_globstar_nothing_iff (rest : List Component) (before : Text) :
    Takes mode (concat (componentRegexes reporting false false (.globstar :: rest))) before [] [] ↔
      rest ≠ [] ∧
      Takes mode (concat (componentRegexes reporting false false rest)) before [] [] := by
  cases rest with
  | nil =>
      have regexes :
          componentRegexes reporting false false [.globstar] = [anyDirectories, wholeSegment] := rfl
      rw [regexes, takes_concat_cons_iff, both_nothing_iff, takes_concat_singleton_iff,
        takes_just_whole_segment mode]
      simp
  | cons second rest =>
      have regexes : componentRegexes reporting false false (.globstar :: second :: rest) =
          anyDirectories :: componentRegexes reporting false false (second :: rest) := rfl
      have directories : Takes mode anyDirectories before [] [] := .stop before []
      rw [regexes, takes_concat_cons_iff, both_nothing_iff, and_iff_right directories,
        and_iff_right (List.cons_ne_nil second rest)]

theorem takes_nothing_iff {components : List Component} (nonempty : components ≠ [])
    (proper : ∀ component ∈ components, component.Proper)
    (apart : components.IsChain Component.Apart)
    (before : Text) :
    Takes mode (concat (componentRegexes reporting false false components)) before [] [] ↔
      components = [Component.bareSuffix] ∨ components = [.globstar, Component.bareSuffix] := by
  obtain ⟨first, rest, rfl⟩ := List.exists_cons_of_ne_nil nonempty
  obtain ⟨firstProper, restProper⟩ := List.forall_mem_cons.mp proper
  by_cases globstar : first = .globstar
  · subst globstar
    rw [takes_globstar_nothing_iff]
    cases rest with
    | nil => simp [Component.bareSuffix]
    | cons second rest =>
        have other := (List.isChain_cons_cons.mp apart).1.resolve_left (not_not.mpr rfl)
        rw [takes_segment_nothing_iff (restProper second List.mem_cons_self) other]
        simp [Component.bareSuffix]
  · rw [takes_segment_nothing_iff firstProper globstar]
    simp [globstar]

theorem takes_due_separator_iff {components : List Component} (nonempty : components ≠ [])
    (anchored : Prop) :
    (∃ before taken, ['/'] = before ++ taken ∧ (anchored → before = []) ∧
        Takes mode (concat (componentRegexes reporting true false components)) before taken []) ↔
      Takes mode (concat (componentRegexes reporting false false components)) ['/'] [] [] := by
  obtain ⟨component, rest, rfl⟩ := List.exists_cons_of_ne_nil nonempty
  simp only [component_regexes_due, takes_slash_iff]
  constructor
  · intro ends
    obtain ⟨before, -, same, -, rest, rfl, takes⟩ := ends
    cases before with
    | nil =>
        rw [← (List.cons.inj same).2] at takes
        exact takes
    | cons first before => simp at same
  · intro takes
    exact ⟨[], ['/'], rfl, fun _ => rfl, [], rfl, takes⟩

/-- Nothing else comes of opening with `**`, as what it takes can be left to what comes before. -/
theorem takes_opening_separator_iff {components : List Component} (nonempty : components ≠ []) :
    (∃ before taken, ['/'] = before ++ taken ∧
        Takes mode (concat (componentRegexes reporting true true components)) before taken []) ↔
      Takes mode (concat (componentRegexes reporting false false components)) ['/'] [] [] := by
  have due : ∀ {components : List Component}, components ≠ [] →
      ((∃ before taken, ['/'] = before ++ taken ∧
          Takes mode (concat (componentRegexes reporting true false components)) before taken []) ↔
        Takes mode (concat (componentRegexes reporting false false components)) ['/'] [] []) :=
    fun nonempty => by simpa using takes_due_separator_iff nonempty False
  obtain ⟨first, rest, rfl⟩ := List.exists_cons_of_ne_nil nonempty
  by_cases globstar : first = .globstar
  · subst globstar
    rw [takes_globstar_nothing_iff]
    by_cases inner : rest = []
    · subst inner
      have regexes :
          componentRegexes reporting true true [.globstar] = [anyDirectories, wholeSegment] := rfl
      simp only [regexes, takes_concat_cons_iff]
      rw [takes_some_opening_iff]
      simp only [takes_concat_singleton_iff]
      rw [takes_some_whole_segment_iff]
      simp [List.singleton_eq_append_iff, isSegmentCharacter]
    · simp only [component_regexes_opening_globstar reporting inner, takes_concat_cons_iff]
      rw [takes_some_opening_iff, due inner, and_iff_right inner]
  · rw [component_regexes_opening reporting globstar]
    exact due nonempty

end Glob

namespace Branch

open PathGlob.Path Regex

variable {branch : Branch} {path : Text}

theorem Parsed.matches_nothing_iff (parsed : branch.Parsed) (none : segments path = []) :
    branch.matchesPath (normalize path) = true ↔
      branch.glob.TakesNothing ∧ (branch.rooted = true → startsAtRoot path = true) := by
  have canonical := parsed.canonical
  have nonempty := canonical.proper.nonempty
  have behind :
      Takes branch.mode (concat (Glob.componentRegexes .silent false false branch.glob.components))
      ['/'] [] [] ↔ branch.glob.TakesNothing :=
    Glob.takes_nothing_iff nonempty canonical.proper.components canonical.apart ['/']
  rw [← behind, matchesPath, regex, Glob.regex_found_iff, rooted, Glob.subject, is_rooted_normalize,
    Path.normalize, none]
  cases branch.glob.rooted with
  | false =>
      have subject :
          ∀ root : Bool, (if root then (if root then ['/'] else []) ++ Text.joinWith '/' []
          else '/' :: ((if root then ['/'] else []) ++ Text.joinWith '/' [])) = ['/'] := by decide
      simp [subject, ← Glob.takes_opening_separator_iff nonempty]
  | true =>
      cases startsAtRoot path with
      | false => simp [Text.joinWith, Glob.takes_due_nothing_iff, nonempty]
      | true =>
          rw [← Glob.takes_due_separator_iff nonempty (true = true)]
          simp [Text.joinWith]

end Branch

namespace Pattern

open PathGlob.Path

/--
A path that normalizes to nothing or to the root is matched by the branches `.*` and `**/.*` only,
where they are relative, and at the root also where they are rooted.
-/
theorem matches_segmentless_iff {pattern : Pattern} (built : pattern.Built) {path : Text}
    (bare : normalize path = [] ∨ normalize path = ['/']) :
    pattern.matchesPath path = true ↔
      ∃ branch ∈ pattern.branches, branch.glob.TakesNothing ∧
        (branch.rooted = true → normalize path = ['/']) := by
  have none := (normalize_eq_nil_or_root_iff path).mp bare
  have root : startsAtRoot path = true ↔ normalize path = ['/'] := by
    rw [Path.normalize, none]
    cases startsAtRoot path <;> simp [Text.joinWith]
  rw [matchesPath, List.any_eq_true]
  apply exists_congr
  intro branch
  apply and_congr_right
  intro member
  rw [(built.proper.parsed branch member).matches_nothing_iff none, root]

/-- The pattern `a;/**/.*` for the path `\.`, which is the root. -/
theorem matches_segmentless_rooted :
    ∃ pattern,
      compile .lenient ['a', ';', '/', '*', '*', '/', '.', '*'] .insensitive = .ok pattern ∧
      normalize ['\\', '.'] = ['/'] ∧
      (pattern.matchesPath ['\\', '.'] = true ↔
        ∃ branch ∈ pattern.branches, branch.glob.TakesNothing ∧
          (branch.rooted = true → normalize ['\\', '.'] = ['/'])) := by
  have compiled : compile .lenient ['a', ';', '/', '*', '*', '/', '.', '*'] .insensitive =
      .ok ⟨[⟨⟨false, [.literal ['a']]⟩, .insensitive⟩,
        ⟨⟨true, [.globstar, Component.bareSuffix]⟩, .insensitive⟩]⟩ := by decide +kernel
  exact ⟨_, compiled, by decide, matches_segmentless_iff (.compiled compiled) (.inr (by decide))⟩

/--
The pattern `.*` matches the empty path and the root, which have no segment that it could describe.
-/
theorem bare_suffix_matches_nothing :
    ∃ pattern, compile .lenient ['.', '*'] .sensitive = .ok pattern ∧ segments [] = [] ∧
    segments ['/'] = [] ∧
      pattern.matchesPath [] = true ∧ pattern.matchesPath ['/'] = true := by
  have compiled :
      compile .lenient ['.', '*'] .sensitive =
        .ok ⟨[⟨⟨false, [Component.bareSuffix]⟩, .sensitive⟩]⟩ := by
    decide +kernel
  exact ⟨_, compiled, rfl, rfl, by decide +kernel, by decide +kernel⟩

end Pattern

end PathGlob
