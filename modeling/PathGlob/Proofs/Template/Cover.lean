import PathGlob.Proofs.Glob.Plain
import PathGlob.Proofs.Pattern.Identity
import PathGlob.Template

/-!
# The plain glob covers its template

A template is searched for with one expression and its candidates with another, made from the text
of the plain glob. Component for component the second takes at least what the first takes, so
whatever the template matches, the plain glob matches. It can take more in two ways only: where one
`*` stands for several neighbouring wildcards, and where a placeholder behind a dot at the very end
has become the `*` of an optional suffix. Without these the two take the same.
-/
namespace PathGlob

set_option autoImplicit false

namespace Regex

variable {mode : CaseMode}

def Covered (mode : CaseMode) (part other : Regex) : Prop :=
  ∀ before taken after, Takes mode part before taken after → Takes mode other before taken after

theorem covered_refl (parts : List Regex) : List.Forall₂ (Covered mode) parts parts :=
  List.forall₂_same.mpr fun _ _ _ _ _ => id

theorem covered_concat {parts others : List Regex}
    (covered : List.Forall₂ (Covered mode) parts others) :
    Covered mode (concat parts) (concat others) := by
  intro before taken after takes
  induction covered generalizing before taken with
  | nil => exact takes
  | cons first _ ih =>
      rw [takes_concat_cons_iff] at takes ⊢
      obtain ⟨left, right, same, inPart, inParts⟩ := takes
      exact ⟨left, right, same, first _ _ _ inPart, ih _ _ inParts⟩

end Regex

open Regex

variable {mode : CaseMode}

namespace Part

def isWildcard : Part → Bool
  | .star => true
  | .placeholder _ => true
  | _ => false

theorem anonymous_eq_star_iff (part : Part) : part.anonymous = .star ↔ part.isWildcard = true := by
  cases part <;> simp [anonymous, isWildcard]

theorem anonymous_eq_literal_iff (part : Part) (text : Text) :
    part.anonymous = .literal text ↔ part = .literal text := by
  cases part <;> simp [anonymous]

theorem merge_eq_self {parts : List Part} (apart : parts.IsChain NotBothStar) :
    merge parts = parts := by
  rw [merge_eq_destutter_stars, List.destutter_of_isChain _ _ apart]

theorem regex_anonymous (part : Part) : part.anonymous.regex .silent = part.regex .silent := by
  cases part <;> rfl

theorem regexes_anonymous (parts : List Part) :
    (parts.map anonymous).map (regex .silent) = parts.map (regex .silent) := by
  simp only [List.map_map, Function.comp_def, regex_anonymous]

/-- Whether parts end with a placeholder behind a dot, which has no suffix to leave out. -/
def EndsWithDottedName (parts : List Part) : Prop :=
  ∃ before stem name, parts = before ++ [.literal (stem ++ ['.']), .placeholder name]

theorem dot_star_anonymous {parts : List Part} (other : ¬EndsWithDottedName parts) :
    dotStar? (parts.map anonymous) =
      (dotStar? parts).map fun (before, stem) => (before.map anonymous, stem) := by
  cases dotted : dotStar? parts with
  | some split =>
      obtain ⟨before, stem⟩ := split
      rw [(dot_star_eq_some_iff parts before stem).mp dotted]
      exact (dot_star_eq_some_iff ..).mpr (by simp [anonymous])
  | none =>
      apply Option.eq_none_iff_forall_ne_some.mpr
      rintro ⟨plain, stem⟩ found
      rw [dot_star_eq_some_iff, List.map_eq_append_iff] at found
      obtain ⟨before, ending, rfl, rfl, same⟩ := found
      obtain ⟨dot, rest, rfl, literal, more⟩ := List.map_eq_cons_iff.mp same
      obtain ⟨last, rest, rfl, star, more⟩ := List.map_eq_cons_iff.mp more
      obtain rfl := List.map_eq_nil_iff.mp more
      rw [anonymous_eq_literal_iff] at literal
      subst literal
      cases last with
      | star =>
          rw [(dot_star_eq_some_iff _ before stem).mpr rfl] at dotted
          cases dotted
      | placeholder name => exact other ⟨before, stem, name, rfl⟩
      | literal text => cases star
      | oneOf characters => cases star

end Part

namespace Component

/--
The plain component of a segment takes what the component takes, and more where it was merged.
-/
theorem parts_regex_covered {parts : List Part} (proper : ∀ part ∈ parts, part.Proper)
    (plainProper : ∀ part ∈ Part.merge (parts.map Part.anonymous), part.Proper) (isLast : Bool) :
    Covered mode (partsRegex .silent isLast parts)
      (partsRegex .silent isLast (Part.merge (parts.map Part.anonymous))) := by
  intro before taken after takes
  rw [takes_just_parts_regex mode .silent isLast proper] at takes
  rw [takes_just_parts_regex mode .silent isLast plainProper]
  exact ⟨takes.1, describe_segment_plain takes.2⟩

theorem parts_regex_anonymous {parts : List Part} {isLast : Bool}
    (other : isLast = true → ¬Part.EndsWithDottedName parts) :
    partsRegex .silent isLast (parts.map Part.anonymous) = partsRegex .silent isLast parts := by
  cases isLast with
  | false => exact congrArg concat (Part.regexes_anonymous parts)
  | true =>
      rw [partsRegex, partsRegex, if_pos rfl, if_pos rfl, Part.dot_star_anonymous (other rfl)]
      cases Part.dotStar? parts with
      | none => exact congrArg concat (Part.regexes_anonymous parts)
      | some split =>
          exact congrArg (fun regexes => concat (regexes ++ _)) (Part.regexes_anonymous split.1)

end Component

namespace Glob

theorem component_regexes_covered {components : List Component}
    (proper : ∀ component ∈ components, component.Proper)
    (plainProper : ∀ component ∈ components, component.anonymous.Proper) (due opening : Bool) :
    List.Forall₂ (Covered mode) (componentRegexes .silent due opening components)
      (componentRegexes .silent due opening (components.map Component.anonymous)) := by
  induction components generalizing due opening with
  | nil => exact .nil
  | cons component rest ih =>
      obtain ⟨first, others⟩ := List.forall_mem_cons.mp proper
      obtain ⟨firstPlain, othersPlain⟩ := List.forall_mem_cons.mp plainProper
      cases component with
      | globstar =>
          simp only [List.map_cons, Component.anonymous, componentRegexes, List.isEmpty_map]
          exact List.rel_append (covered_refl _) (ih others othersPlain opening false)
      | literal text =>
          exact List.rel_append (covered_refl _)
            (.cons (fun _ _ _ => id) (ih others othersPlain true false))
      | compound parts =>
          simp only [List.map_cons, Component.anonymous, componentRegexes, List.isEmpty_map]
          exact List.rel_append (covered_refl _)
            (.cons (Component.parts_regex_covered first.spelled.2 firstPlain.spelled.2 _)
              (ih others othersPlain true false))

/-- Whether the plain glob still tells apart what the glob tells apart. -/
structure KeepsWildcards (components : List Component) : Prop where
  /-- No segment has two neighbouring wildcards, which would become one `*`. -/
  apart : ∀ component ∈ components,
    component.parts.IsChain fun left right => ¬(left.isWildcard = true ∧ right.isWildcard = true)
  /-- The last segment does not end with a dot and a placeholder, which would become a suffix. -/
  noDottedName : ∀ component ∈ components.getLast?, ¬Part.EndsWithDottedName component.parts

theorem KeepsWildcards.behind {component : Component} {rest : List Component}
    (keeps : KeepsWildcards (component :: rest)) : KeepsWildcards rest := by
  refine ⟨(List.forall_mem_cons.mp keeps.apart).2, fun last member => ?_⟩
  have nonempty : rest ≠ [] := by
    rintro rfl
    cases member
  apply keeps.noDottedName
  rwa [List.getLast?_cons_of_ne_nil nonempty]

theorem component_regexes_anonymous {components : List Component}
    (keeps : KeepsWildcards components) (due opening : Bool) :
    componentRegexes .silent due opening (components.map Component.anonymous) =
      componentRegexes .silent due opening components := by
  induction components generalizing due opening with
  | nil => rfl
  | cons component rest ih =>
      have others := ih keeps.behind
      cases component with
      | globstar =>
          simp only [List.map_cons, Component.anonymous, componentRegexes, List.isEmpty_map, others]
      | literal text => simp only [List.map_cons, Component.anonymous, componentRegexes, others]
      | compound parts =>
          have apart : (parts.map Part.anonymous).IsChain Part.NotBothStar := by
            rw [List.isChain_map]
            simp only [Part.NotBothStar, Part.anonymous_eq_star_iff]
            exact keeps.apart (.compound parts) List.mem_cons_self
          have other : rest.isEmpty = true → ¬Part.EndsWithDottedName parts := by
            intro last
            rw [List.isEmpty_iff.mp last] at keeps
            exact keeps.noDottedName (.compound parts) rfl
          simp only [List.map_cons, Component.anonymous, Part.merge_eq_self apart, componentRegexes,
            List.isEmpty_map, Component.parts_regex_anonymous other, others]

theorem regex_anonymous {glob : Glob} (keeps : KeepsWildcards glob.components) :
    glob.anonymous.regex mode .silent = glob.regex mode .silent := by
  rw [regex, regex, anonymous, component_regexes_anonymous keeps]

theorem Canonical.parsed_anonymous {glob : Glob} (canonical : glob.Canonical) (mode : CaseMode) :
    Branch.Parsed ⟨glob.anonymous, mode⟩ :=
  ⟨glob.text, Branch.parse_eq_ok_iff.mpr ⟨canonical.parse_text, glob.placeholders_anonymous⟩⟩

theorem Canonical.found_anonymous {glob : Glob} (canonical : glob.Canonical) {text : Text}
    (found : (glob.regex mode .silent).found text = true) :
    (glob.anonymous.regex mode .silent).found text = true := by
  have plainProper : ∀ component ∈ glob.components, component.anonymous.Proper :=
    fun component member =>
    (canonical.proper.components component member).anonymous (canonical.legible component member)
  have covered := covered_concat
    (@component_regexes_covered mode _ canonical.proper.components plainProper true (!glob.rooted))
  rw [regex_found_iff] at found ⊢
  obtain ⟨before, taken, same, starts, takes⟩ := found
  exact ⟨before, taken, same, starts, covered _ _ _ takes⟩

end Glob

namespace Template

open PathGlob.Path

def branch (template : Template) : Branch := ⟨template.glob.anonymous, template.mode⟩

structure Proper (template : Template) : Prop where
  canonical : template.glob.Canonical
  plain : template.plain.branches = [template.branch]

variable {engine : Engine} {template : Template}

/-- Compiling reads the glob, finds no flaw in the names and compiles the plain text. -/
theorem compile_eq_ok {text : Text} {mode : CaseMode}
    (compiled : compile engine text mode = .ok template) :
    Glob.parse text = .ok template.glob ∧ nameFlaw? [] template.names = none ∧
      template.mode = mode ∧
      Pattern.compile engine template.glob.text mode = .ok template.plain := by
  obtain ⟨glob, parsed, checked⟩ := bind_eq_ok_iff.mp compiled
  split at checked
  · cases checked
  · rename_i flawless
    obtain ⟨plain, plainCompiled, same⟩ := bind_eq_ok_iff.mp checked
    cases same
    exact ⟨parsed, (Option.or_eq_none_iff.mp flawless).1, rfl, plainCompiled⟩

theorem compile_proper {text : Text} {mode : CaseMode}
    (compiled : compile engine text mode = .ok template) : template.Proper := by
  obtain ⟨parsed, -, rfl, plain⟩ := compile_eq_ok compiled
  have canonical := Glob.parse_canonical parsed
  have single := canonical.anonymous.proper.semicolon_not_mem
  obtain ⟨other, read, branches⟩ := Pattern.compile_single_eq_ok single plain
  cases canonical.parse_text.symm.trans read
  exact ⟨canonical, branches⟩

theorem Proper.parsed (proper : template.Proper) : template.branch.Parsed :=
  proper.canonical.parsed_anonymous _

theorem Proper.plain_matches (proper : template.Proper) (path : Text) :
    template.plain.matchesPath path = template.branch.matchesPath (normalize path) := by
  rw [Pattern.matchesPath, proper.plain, List.any_cons, List.any_nil, Bool.or_false]

theorem match_eq (template : Template) (path : Text) :
    template.match? path =
      (template.regex.search (template.glob.subject (normalize path))).map fun captures =>
      ⟨normalize path, template.names.filterMap fun name =>
        (captures.lookup name).map (name, ·)⟩ := by
  unfold match?
  exact (Option.map_eq_bind ..).symm

theorem match_is_some (template : Template) (path : Text) :
    (template.match? path).isSome =
      template.regex.found (template.glob.subject (normalize path)) := by
  rw [match_eq, Option.isSome_map, Regex.found]

theorem path_of_match {path : Text} {found : TemplateMatch}
    (matched : template.match? path = some found) :
    found.path = normalize path := by
  rw [match_eq] at matched
  obtain ⟨captures, -, rfl⟩ := Option.map_eq_some_iff.mp matched
  rfl

theorem Proper.candidate_of_match (proper : template.Proper) {path : Text}
    (matched : (template.match? path).isSome = true) :
    template.branch.matchesPath (normalize path) = true := by
  rw [match_is_some, regex, Glob.regex_found_named] at matched
  exact proper.canonical.found_anonymous matched

/--
Whatever a template matches, its plain pattern matches. If no segment has neighbouring wildcards and
the last does not end with a dot and a placeholder, the plain pattern matches nothing else.
-/
theorem plain_pattern_covers_template {text : Text} {mode : CaseMode}
    (compiled : compile engine text mode = .ok template) (path : Text) :
    ((template.match? path).isSome = true → template.plain.matchesPath path = true) ∧
      (Glob.KeepsWildcards template.glob.components → template.plain.matchesPath path = true →
        (template.match? path).isSome = true) := by
  have proper := compile_proper compiled
  rw [proper.plain_matches]
  refine ⟨proper.candidate_of_match, fun keeps matched => ?_⟩
  rw [match_is_some, regex, Glob.regex_found_named, ← Glob.regex_anonymous keeps]
  exact matched

/-- The template `src/{name}.*`, whose suffix can be missing in both. -/
theorem plain_pattern_covers_template_bare :
    ∃ template,
      compile .lenient ['s', 'r', 'c', '/', '{', 'n', '}', '.', '*'] .insensitive = .ok template ∧
      Glob.KeepsWildcards template.glob.components ∧
      template.plain.matchesPath ['/', 'S', 'R', 'C', '/', 'm', 'a', 'i', 'n'] = true ∧
      (template.match? ['/', 'S', 'R', 'C', '/', 'm', 'a', 'i', 'n']).isSome = true := by
  have compiled : compile .lenient ['s', 'r', 'c', '/', '{', 'n', '}', '.', '*'] .insensitive = .ok
      ⟨['s', 'r', 'c', '/', '{', 'n', '}', '.', '*'],
        ⟨false, [.literal ['s', 'r', 'c'], .compound [.placeholder ['n'], .literal ['.'], .star]]⟩,
          .insensitive,
        ⟨[⟨⟨false, [.literal ['s', 'r', 'c'], .compound [.star, .literal ['.'], .star]]⟩,
          .insensitive⟩]⟩⟩ := by
    decide +kernel
  have keeps : Glob.KeepsWildcards
      [.literal ['s', 'r', 'c'], .compound [.placeholder ['n'], .literal ['.'], .star]] := by
    refine ⟨by simp [Component.parts, Part.isWildcard], ?_⟩
    rintro component member ⟨before, stem, name, same⟩
    cases member
    have last := congrArg List.getLast? same
    simp [Component.parts] at last
  have covers :=
    plain_pattern_covers_template compiled ['/', 'S', 'R', 'C', '/', 'm', 'a', 'i', 'n']
  have matched : Pattern.matchesPath
      ⟨[⟨⟨false, [.literal ['s', 'r', 'c'], .compound [.star, .literal ['.'], .star]]⟩,
        .insensitive⟩]⟩
      ['/', 'S', 'R', 'C', '/', 'm', 'a', 'i', 'n'] = true := by decide +kernel
  exact ⟨_, compiled, keeps, matched, covers.2 keeps matched⟩

end Template

end PathGlob
