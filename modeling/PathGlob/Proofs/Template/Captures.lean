import PathGlob.Proofs.Glob.Following
import PathGlob.Proofs.Template.Naming

/-!
# What a match reports

A match of a path reports the first of its decompositions: the one that starts at the earliest
segment and divides the segments from there on as the search prefers. A rooted glob starts at the
first segment. A relative one is tried from each segment in turn, so a `**` that opens it never has
anything to take. Placeholders are not found in a path without segments.
-/
namespace PathGlob

set_option autoImplicit false

open PathGlob.Path Regex

variable {mode : CaseMode}

namespace Glob

/-- The segment that a glob starts at, counted from the first, and how it divides the others. -/
structure Decomposition where
  start : Nat
  choices : List Choice

namespace Decomposition

def captures (decomposition : Decomposition) : List (Text × Text) := captured decomposition.choices

/--
Whether one decomposition is preferred to another: by the start, then by the first choice that
differs.
-/
def Before (left right : Decomposition) : Prop :=
  left.start < right.start ∨ left.start = right.start ∧ Choices.Before left.choices right.choices

theorem before_at (start : Nat) (left right : List Choice) (earlier : Choices.Before left right) :
    Before ⟨start, left⟩ ⟨start, right⟩ := .inr ⟨rfl, earlier⟩

def behind (decomposition : Decomposition) : Decomposition :=
  ⟨decomposition.start + 1, decomposition.choices⟩

theorem before_behind (left right : Decomposition) (earlier : left.Before right) :
    left.behind.Before right.behind :=
  earlier.imp Nat.succ_lt_succ fun both => ⟨congrArg (· + 1) both.1, both.2⟩

end Decomposition

structure DividesOpen (mode : CaseMode) (components : List Component) (segments : List Text)
    (choices : List Choice) : Prop where
  divides : Divides mode components segments choices
  opening : ∀ rest, rest ≠ [] → components = .globstar :: rest → choices.head? = some (.segments [])

/--
Whether the segments of a path can be decomposed in this way. A rooted glob takes all segments of a
rooted path, a relative one takes the last ones, and a `**` that opens it takes none of them.
-/
def Decomposes (mode : CaseMode) (glob : Glob) (path : Text) (decomposition : Decomposition) :
    Prop :=
  if glob.rooted then startsAtRoot path = true ∧ decomposition.start = 0 ∧
    Divides mode glob.components (segments path) decomposition.choices
  else DividesOpen mode glob.components
    ((segments path).drop decomposition.start) decomposition.choices

section Starting

variable {thread : Thread} {components : List Component}

theorem find_no_directories {next : Thread → Option Captures} (boundary : AtBoundary thread.rest) :
    (advance mode anyDirectories thread).findSome? next = next thread := by
  apply find_same
  · exact (mem_advance_iff nameless_any_directories).mpr ⟨[], thread.rest, rfl, .stop _ _, rfl⟩
  · intro other member
    obtain ⟨taken, left, rest, takes, rfl⟩ := (mem_advance_iff nameless_any_directories).mp member
    cases takes with
    | stop => rfl
    | again once more =>
        obtain ⟨name, rfl, nonempty, free, -⟩ := (takes_directory_iff _ _ _).mp once
        obtain ⟨first, name, rfl⟩ := List.exists_cons_of_ne_nil nonempty
        rcases boundary with ended | ⟨others, slash⟩
        · rw [ended] at rest
          cases rest
        · rw [slash] at rest
          cases rest
          simp at free

/-- What opens a relative glob is due a separator, apart from a `**`, which can come before it. -/
theorem opening_cases (several : components ≠ [.globstar]) :
    (∃ rest, rest ≠ [] ∧ components = .globstar :: rest ∧
      componentRegexes .named true true components =
        anyDirectories :: componentRegexes .named true false rest) ∨
    (∀ rest, components ≠ .globstar :: rest) ∧
      componentRegexes .named true true components =
        componentRegexes .named true false components := by
  cases components with
  | nil => exact .inr ⟨fun rest same => List.cons_ne_nil _ _ same.symm, rfl⟩
  | cons component rest =>
      by_cases globstar : component = .globstar
      · subst globstar
        have inner : rest ≠ [] := fun none => several (none ▸ rfl)
        exact .inl ⟨rest, inner, rfl, component_regexes_opening_globstar .named inner⟩
      · exact .inr
          ⟨fun other same => globstar (List.cons.inj same).1,
            component_regexes_opening .named globstar⟩

/-- At a separator, what opens a relative glob comes to the first division of the segments. -/
theorem follow_opening_first (proper : ∀ component ∈ components, component.Proper)
    (several : components ≠ [.globstar]) {segments : List Text}
    (named : ∀ name ∈ segments, IsName name)
    (here : thread.rest = slashed segments) :
    FirstOf Choices.Before (DividesOpen mode components segments)
      (fun choices => thread.captures ++ captured choices)
      (follow mode (componentRegexes .named true true components) finish thread) := by
  rcases opening_cases several with ⟨rest, inner, rfl, opened⟩ | ⟨other, opened⟩
  · have boundary : AtBoundary thread.rest := here ▸ at_boundary_slashed segments
    have first : FirstOf Choices.Before (Divides mode rest segments) _ _ :=
      follows_due (List.forall_mem_cons.mp proper).2 named thread here
    rw [opened, follow, find_no_directories boundary]
    refine (first.image (fun choices => thread.captures ++ captured choices) (.segments [] :: ·)
      fun _ _ => List.Lex.cons).congr fun choices => ⟨?_, ?_⟩
    · rintro ⟨more, divides, rfl⟩
      exact ⟨.globstar (fun none => absurd none inner) (List.forall_mem_nil _) divides,
        fun _ _ _ => rfl⟩
    · rintro ⟨divides, opening⟩
      obtain ⟨taken, others, more, rfl, rfl, -, -, divided⟩ :=
        (divides_globstar_iff _ _ _).mp divides
      cases opening rest inner rfl
      exact ⟨more, divided, rfl⟩
  · rw [opened]
    exact (follows_due proper named thread here).congr fun choices =>
      ⟨fun divides => ⟨divides, fun rest _ same => absurd same (other rest)⟩, DividesOpen.divides⟩

theorem inside_segment {segment : Text} {segments : List Text}
    (named : segment ≠ [] ∧ '/' ∉ segment) (here : thread.rest = segment ++ slashed segments) :
    ¬AtBoundary thread.rest := by
  intro boundary
  obtain ⟨first, segment, rfl⟩ := List.exists_cons_of_ne_nil named.1
  rw [here] at boundary
  rcases boundary with ended | ⟨more, slash⟩
  · cases ended
  · cases slash
    simp at named

/-- Inside a segment, nothing that is due a separator can start. -/
theorem follow_opening_inside (several : components ≠ [.globstar]) {segment : Text}
    {segments : List Text} (named : ∀ name ∈ segment :: segments, name ≠ [] ∧ '/' ∉ name)
    (here : thread.rest = segment ++ slashed segments) :
    follow mode (componentRegexes .named true true components) finish thread = none := by
  rcases opening_cases several with ⟨rest, inner, rfl, opened⟩ | ⟨other, opened⟩
  · -- However many directories are taken first, the next segment is still to come.
    have tried : FirstOf Choices.Before (Passing (segment :: segments) fun _ _ => False) captured
        ((advance mode anyDirectories thread).findSome?
          (follow mode (componentRegexes .named true false rest) finish)) := by
      apply any_directories_first (fun _ _ => False) (blind_components true false rest) named here
      · intro taken last others same _ later laterRest _
        have member : last ∈ segment :: segments :=
          same ▸ List.mem_append_right taken List.mem_cons_self
        rw [follow_inside_segment (inside_segment (named last member) laterRest)]
        exact fun choices => id
      · exact fun _ _ _ _ _ => False.elim
    rw [opened, follow]
    exact tried.eq_none (by simp [Passing])
  · rw [opened]
    exact follow_inside_segment (inside_segment (named segment List.mem_cons_self) here) components

end Starting

section Searching

variable {glob : Glob}

/-- What the expression of a glob comes to at one position. -/
theorem head_advance_regex (mode : CaseMode) (glob : Glob) (thread : Thread) :
    (advance .sensitive (glob.regex mode .named) thread).head?.map Thread.captures =
      follow mode ((if glob.rooted then [.textStart] else []) ++
        componentRegexes .named true (!glob.rooted) glob.components) finish thread := by
  have folded : ∀ regex, advance .sensitive (underCase mode regex) = advance mode regex := by
    cases mode <;> exact fun _ => rfl
  rw [regex, folded, head_advance_anchored]

theorem search_from_nil (regex : Regex) (offset : Nat) :
    (searchFrom regex offset []).map Thread.captures =
      (advance .sensitive regex ⟨offset, [], []⟩).head?.map Thread.captures := rfl

theorem search_from_cons (regex : Regex) (offset : Nat) (next : Char) (rest : Text) :
    (searchFrom regex offset (next :: rest)).map Thread.captures =
      ((advance .sensitive regex ⟨offset, next :: rest, []⟩).head?.map Thread.captures).or
        ((searchFrom regex (offset + 1) rest).map Thread.captures) := by
  rw [searchFrom]
  cases advance .sensitive regex ⟨offset, next :: rest, []⟩ <;> rfl

theorem search_rooted (rooted : glob.rooted = true) (text : Text) :
    (glob.regex mode .named).search text =
      follow mode (componentRegexes .named true false glob.components) finish ⟨0, text, []⟩ := by
  have tried : ∀ thread : Thread,
      (advance .sensitive (glob.regex mode .named) thread).head?.map Thread.captures =
      if thread.offset = 0 then
        follow mode (componentRegexes .named true false glob.components) finish thread
      else none := by
    intro thread
    rw [head_advance_regex, rooted, if_pos rfl, List.singleton_append, follow, advance]
    split
    · exact List.findSome?_singleton
    · rfl
  have later : ∀ (text : Text) (offset : Nat),
      (searchFrom (glob.regex mode .named) (offset + 1) text).map Thread.captures = none := by
    intro text
    induction text with
    | nil => exact fun offset => (tried _).trans (if_neg (Nat.succ_ne_zero offset))
    | cons next text ih =>
        intro offset
        rw [search_from_cons, tried, ih, if_neg (Nat.succ_ne_zero offset)]
        rfl
  rw [search]
  cases text with
  | nil => exact tried _
  | cons next text =>
      rw [search_from_cons, tried, later, if_pos rfl]
      exact Option.or_none

theorem head_advance_relative (relative : glob.rooted = false) (thread : Thread) :
    (advance .sensitive (glob.regex mode .named) thread).head?.map Thread.captures =
      follow mode (componentRegexes .named true true glob.components) finish thread := by
  rw [head_advance_regex, relative, if_neg Bool.false_ne_true]
  rfl

/-- Starts inside a segment come to nothing. -/
theorem search_inside (relative : glob.rooted = false) (several : glob.components ≠ [.globstar])
    {segment : Text} {segments : List Text} (free : '/' ∉ segment)
    (named : ∀ name ∈ segments, IsName name) (offset : Nat) :
    (searchFrom (glob.regex mode .named) offset (segment ++ slashed segments)).map Thread.captures =
      (searchFrom (glob.regex mode .named) (offset + segment.length) (slashed segments)).map
        Thread.captures := by
  induction segment generalizing offset with
  | nil => rfl
  | cons first segment ih =>
      have plain : ∀ name ∈ (first :: segment) :: segments, name ≠ [] ∧ '/' ∉ name :=
        List.forall_mem_cons.mpr ⟨⟨List.cons_ne_nil _ _, free⟩, fun name member =>
          ⟨(named name member).nonempty, (named name member).slash_not_mem⟩⟩
      have none : follow mode (componentRegexes .named true true glob.components) finish
          ⟨offset, first :: (segment ++ slashed segments), []⟩ = none :=
          follow_opening_inside several plain rfl
      rw [List.cons_append, search_from_cons, head_advance_relative relative, none, Option.none_or,
        ih (List.not_mem_of_not_mem_cons free), Nat.add_assoc, Nat.add_comm 1, List.length_cons]

/-- A relative glob is tried at each segment in turn. -/
theorem search_slashed_first (relative : glob.rooted = false)
    (several : glob.components ≠ [.globstar]) (proper : glob.Proper) {segments : List Text}
    (named : ∀ name ∈ segments, IsName name) (offset : Nat) :
    FirstOf Decomposition.Before
      (fun decomposition =>
        DividesOpen mode glob.components (segments.drop decomposition.start) decomposition.choices)
      Decomposition.captures
      ((searchFrom (glob.regex mode .named) offset (slashed segments)).map Thread.captures) := by
  induction segments generalizing offset with
  | nil =>
      have none :
          follow mode (componentRegexes .named true true glob.components) finish ⟨offset, [], []⟩ =
            none :=
        (follow_opening_first proper.components several named rfl).eq_none fun choices divided =>
          not_divides_nil proper.nonempty choices divided.divides
      rw [slashed_nil, search_from_nil, head_advance_relative relative]
      apply FirstOf.of_eq_none none
      intro decomposition divided
      rw [List.drop_nil] at divided
      exact not_divides_nil proper.nonempty _ divided.divides
  | cons segment segments ih =>
      obtain ⟨first, laterNamed⟩ := List.forall_mem_cons.mp named
      have now : FirstOf Decomposition.Before _ Decomposition.captures
          (follow mode (componentRegexes .named true true glob.components) finish
            ⟨offset, slashed (segment :: segments), []⟩) :=
        (follow_opening_first proper.components several named rfl).image Decomposition.captures
          (Decomposition.mk 0)
          (Decomposition.before_at 0)
      have later : FirstOf Decomposition.Before _ Decomposition.captures
          ((searchFrom (glob.regex mode .named) (offset + 1 + segment.length)
            (slashed segments)).map
            Thread.captures) :=
        (ih laterNamed _).image Decomposition.captures Decomposition.behind
          Decomposition.before_behind
      rw [slashed_cons, search_from_cons, head_advance_relative relative,
        search_inside relative several first.slash_not_mem laterNamed]
      refine (now.or later ?_).congr fun decomposition => ⟨?_, ?_⟩
      · rintro left right ⟨choices, -, rfl⟩ ⟨other, -, rfl⟩
        exact .inl (Nat.succ_pos _)
      · rintro (⟨choices, divided, rfl⟩ | ⟨other, divided, rfl⟩)
        · exact divided
        · exact divided
      · intro divided
        obtain ⟨start, choices⟩ := decomposition
        cases start with
        | zero => exact .inl ⟨choices, divided, rfl⟩
        | succ start => exact .inr ⟨⟨start, choices⟩, divided, rfl⟩

theorem takes_of_mem {parts : List Regex} {part : Regex} (among : part ∈ parts)
    {before taken after : Text} (takes : Takes mode (concat parts) before taken after) :
    ∃ front stretch back, stretch ⊆ taken ∧ Takes mode part front stretch back := by
  obtain ⟨earlier, later, rfl⟩ := List.append_of_mem among
  obtain ⟨left, right, rfl, -, more⟩ := (takes_concat_append_iff mode _ _ _ _ _).mp takes
  obtain ⟨stretch, rest, rfl, here, -⟩ := (takes_concat_cons_iff mode _ _ _ _ _).mp more
  exact ⟨before ++ left, stretch, rest ++ after, by simp, here⟩

theorem parts_regex_mem {components : List Component} {parts : List Part}
    (among : .compound parts ∈ components) (due opening : Bool) :
    ∃ isLast, Component.partsRegex .named isLast parts ∈ componentRegexes .named due
      opening components := by
  induction components generalizing due opening with
  | nil => cases among
  | cons component rest ih =>
      rcases List.mem_cons.mp among with rfl | inRest
      · exact ⟨rest.isEmpty, by simp [componentRegexes]⟩
      · cases component with
        | globstar =>
            exact (ih inRest opening false).imp fun isLast member => by
              simp [componentRegexes, member]
        | _ =>
            exact (ih inRest true false).imp fun isLast member => by simp [componentRegexes, member]

/-- What reports a value takes some character of a segment. -/
theorem takes_some_character {components : List Component}
    (proper : ∀ component ∈ components, component.Proper)
    (reporting : (components.flatMap Component.parts).filterMap Part.name? ≠ [])
    {due opening : Bool}
    {before taken after : Text}
    (takes : Takes mode
      (concat (componentRegexes .named due opening components)) before taken after) :
    ∃ character ∈ taken, character ≠ '/' := by
  obtain ⟨name, member⟩ := List.exists_mem_of_ne_nil _ reporting
  obtain ⟨part, inParts, named⟩ := List.mem_filterMap.mp member
  obtain ⟨component, among, inComponent⟩ := List.mem_flatMap.mp inParts
  cases component with
  | compound parts =>
      obtain ⟨isLast, inRegexes⟩ := parts_regex_mem among due opening
      obtain ⟨front, stretch, back, within, here⟩ := takes_of_mem inRegexes takes
      obtain ⟨free, described⟩ :=
        (Component.takes_just_parts_regex mode .named isLast
          (proper _ among).spelled.2 _ _ _).mp here
      obtain ⟨choices, divides⟩ :=
        (Component.describe_segment_iff_divides isLast parts stretch).mp described
      have reported : name ∈ (captured choices).map Prod.fst :=
        divides.captured_names ▸ List.mem_filterMap.mpr ⟨part, inComponent, named⟩
      obtain ⟨capture, inChoices, rfl⟩ := List.mem_map.mp reported
      obtain ⟨nonempty, -, inStretch⟩ := divides.captured_reported capture inChoices
      obtain ⟨character, inValue⟩ := List.exists_mem_of_ne_nil _ nonempty
      exact ⟨character, within (inStretch inValue), fun slash => free (slash ▸ inStretch inValue)⟩
  | _ => cases inComponent

theorem search_no_segments (proper : glob.Proper) (reporting : glob.placeholders ≠ []) {path : Text}
    (none : segments path = []) :
    (glob.regex mode .named).search (glob.subject (normalize path)) = Option.none := by
  have slashes : ∀ character ∈ glob.subject (normalize path), character = '/' := by
    rw [subject, Path.normalize, none]
    cases glob.rooted <;> cases startsAtRoot path <;> simp [isRooted, Text.joinWith]
  have fails : ¬(glob.regex mode .named).found (glob.subject (normalize path)) = true := by
    rw [regex_found_iff]
    rintro ⟨before, taken, same, -, takes⟩
    obtain ⟨character, inTaken, other⟩ := takes_some_character proper.components reporting takes
    exact other (slashes character (same ▸ List.mem_append_right before inTaken))
  rwa [found, Option.not_isSome_iff_eq_none] at fails

theorem search_rooted_first (proper : glob.Proper) (rooted : glob.rooted = true) {path : Text}
    (some : segments path ≠ []) :
    FirstOf Decomposition.Before (Decomposes mode glob path) Decomposition.captures
      ((glob.regex mode .named).search (normalize path)) := by
  rw [search_rooted rooted]
  have named : ∀ name ∈ segments path, IsName name :=
    fun name member => is_name_of_mem_segments member
  cases root : startsAtRoot path with
  | true =>
      have first : FirstOf Decomposition.Before _ Decomposition.captures
          (follow mode (componentRegexes .named true false glob.components) finish
            ⟨0, slashed (segments path), []⟩) :=
        (follows_due proper.components named ⟨0, _, []⟩ rfl).image Decomposition.captures
          (Decomposition.mk 0)
          (Decomposition.before_at 0)
      rw [normalize_of_rooted root, absolute_eq_slashed some]
      refine first.congr fun decomposition => ?_
      obtain ⟨start, choices⟩ := decomposition
      simp [Decomposes, rooted, root, and_comm]
  | false =>
      have inside : ¬AtBoundary (normalize path) := by
        have relative := is_rooted_normalize path
        rintro (ended | ⟨rest, slash⟩)
        · exact some ((normalize_eq_nil_iff root).mp ended)
        · rw [slash, root] at relative
          cases relative
      apply FirstOf.of_eq_none (follow_inside_segment inside _)
      intro decomposition decomposes
      rw [Decomposes, if_pos rooted, root] at decomposes
      exact absurd decomposes.1 Bool.false_ne_true

/-- A search reports the first decomposition of the path. -/
theorem search_first (proper : glob.Proper) (reporting : glob.placeholders ≠ []) (path : Text) :
    FirstOf Decomposition.Before (Decomposes mode glob path) Decomposition.captures
      ((glob.regex mode .named).search (glob.subject (normalize path))) := by
  by_cases none : segments path = []
  · apply FirstOf.of_eq_none (search_no_segments proper reporting none)
    intro decomposition decomposes
    rw [Decomposes, none, List.drop_nil] at decomposes
    split at decomposes
    · exact not_divides_nil proper.nonempty _ decomposes.2.2
    · exact not_divides_nil proper.nonempty _ decomposes.divides
  · cases rooted : glob.rooted with
    | true =>
        rw [subject, rooted, Bool.true_or, if_pos rfl]
        exact search_rooted_first proper rooted none
    | false =>
        have several : glob.components ≠ [.globstar] := by
          intro lone
          rw [placeholders, lone] at reporting
          exact reporting rfl
        have text : glob.subject (normalize path) = slashed (segments path) :=
          @Branch.relative_subject ⟨glob, mode⟩ rooted path none
        rw [text]
        refine (search_slashed_first rooted several proper
          (fun name member => is_name_of_mem_segments member)
          0).congr fun decomposition => ?_
        rw [Decomposes, if_neg (by rw [rooted]; exact Bool.false_ne_true)]

end Searching

namespace Decomposes

variable {glob : Glob} {path : Text} {decomposition : Decomposition}

theorem divides (decomposes : Decomposes mode glob path decomposition) :
    ∃ some, some ⊆ segments path ∧
    Divides mode glob.components some decomposition.choices := by
  rw [Decomposes] at decomposes
  split at decomposes
  · exact ⟨segments path, List.Subset.refl _, decomposes.2.2⟩
  · exact ⟨_, List.drop_subset _ _, decomposes.divides⟩

theorem captured_names (decomposes : Decomposes mode glob path decomposition) :
    decomposition.captures.map Prod.fst = glob.placeholders := by
  obtain ⟨some, -, divides⟩ := decomposes.divides
  exact divides.captured_names

theorem captured_reported (decomposes : Decomposes mode glob path decomposition) :
    ∀ capture ∈ decomposition.captures, capture.2 ≠ [] ∧ '/' ∉ capture.2 ∧ ':' ∉ capture.2 := by
  obtain ⟨some, within, divides⟩ := decomposes.divides
  intro capture member
  obtain ⟨segment, among, nonempty, noColon, inSegment⟩ := divides.captured_reported capture member
  have named := is_name_of_mem_segments (within among)
  exact ⟨nonempty, fun slash => named.slash_not_mem (inSegment slash), noColon⟩

end Decomposes

end Glob

namespace Template

variable {template : Template}

theorem nodup_of_no_flaw {names : List Text} (flawless : nameFlaw? [] names = none) :
    names.Nodup ∧ ∀ name ∈ names, name.head?.any Char.isDigit = false := by
  have wellNamed := (name_flaw_eq_none_iff names).mp flawless
  exact ⟨wellNamed.distinct, wellNamed.noDigit⟩

/-- Under distinct names, each value is found again. -/
theorem lookup_each {captures : Captures} (distinct : (captures.map Prod.fst).Nodup) :
    (captures.map Prod.fst).filterMap (fun name => (captures.lookup name).map (name, ·)) =
      captures := by
  have each :
      ∀ capture ∈ captures, (captures.lookup capture.1).map (capture.1, ·) = some capture := by
    intro capture member
    obtain ⟨front, back, rfl⟩ := List.append_of_mem member
    have fresh : capture.1 ∉ front.map Prod.fst := by
      rw [List.map_append, List.map_cons] at distinct
      exact fun earlier => (List.nodup_append.mp distinct).2.2 _ earlier _ List.mem_cons_self rfl
    rw [Option.map_eq_some_iff]
    refine ⟨capture.2, List.lookup_eq_some_iff.mpr ⟨front, back, rfl, fun other among => ?_⟩, rfl⟩
    exact bne_iff_ne.mpr fun same => fresh (same ▸ List.mem_map_of_mem among)
  rw [List.filterMap_map]
  exact (List.filterMap_congr each).trans List.filterMap_some

/--
A match reports the first decomposition of the path: every name once and in order, each with a
value of one segment. Only paths that cannot be decomposed are not matched.
-/
theorem captures_first_decomposition {engine : Engine} {text : Text} {mode : CaseMode}
    (compiled : compile engine text mode = .ok template)
    (reporting : template.names ≠ []) (path : Text) :
    (∀ found, template.match? path = some found →
        found.path = normalize path ∧ found.values.map Prod.fst = template.names ∧
        template.names.Nodup ∧
        (∀ value ∈ found.values, value.2 ≠ [] ∧ '/' ∉ value.2 ∧ ':' ∉ value.2) ∧
        ∃ first, Glob.Decomposes mode template.glob path first ∧ found.values = first.captures ∧
          ∀ other, Glob.Decomposes mode template.glob path other → other = first ∨
          first.Before other) ∧
      (template.match? path = none ↔
        ∀ decomposition, ¬Glob.Decomposes mode template.glob path decomposition) := by
  obtain ⟨-, flawless, rfl, -⟩ := compile_eq_ok compiled
  have distinct : template.names.Nodup := (nodup_of_no_flaw flawless).1
  have tried : FirstOf _ _ _ (template.regex.search (template.glob.subject (normalize path))) :=
    Glob.search_first (compile_proper compiled).canonical.proper reporting path
  rw [match_eq]
  cases searched : template.regex.search (template.glob.subject (normalize path)) with
  | none =>
      rw [searched] at tried
      refine ⟨fun found impossible => ?_, fun _ => tried, fun _ => rfl⟩
      cases impossible
  | some captures =>
      rw [searched] at tried
      obtain ⟨first, decomposes, rfl, preferred⟩ := tried
      have names : first.captures.map Prod.fst = template.names := decomposes.captured_names
      have values :
          template.names.filterMap (fun name => (first.captures.lookup name).map (name, ·)) =
          first.captures := by
        rw [← names] at distinct ⊢
        exact lookup_each distinct
      rw [Option.map_some, values]
      refine ⟨?_, ?_⟩
      · rintro found matched
        cases matched
        exact ⟨rfl, names, distinct, decomposes.captured_reported, first, decomposes, rfl,
          preferred⟩
      · constructor
        · intro impossible
          cases impossible
        · intro none
          exact absurd decomposes (none first)

/-- The template `{d}/**/{n}-{k}`, which divides `a/b/x-y-z` in four ways. -/
theorem captures_first_decomposition_several :
    ∃ template,
      compile .lenient
        ['{', 'd', '}', '/', '*', '*', '/', '{', 'n', '}', '-', '{', 'k', '}'] .insensitive =
        .ok template ∧ template.names ≠ [] ∧
      ∃ found, template.match? ['a', '/', 'b', '/', 'x', '-', 'y', '-', 'z'] = some found ∧
        found.values = [(['d'], ['a']), (['n'], ['x']), (['k'], ['y', '-', 'z'])] ∧
        ∃ first,
          Glob.Decomposes .insensitive template.glob
            ['a', '/', 'b', '/', 'x', '-', 'y', '-', 'z'] first ∧
          found.values = first.captures ∧
          ∀ other,
            Glob.Decomposes .insensitive template.glob
              ['a', '/', 'b', '/', 'x', '-', 'y', '-', 'z'] other →
            other = first ∨ first.Before other := by
  have run : ∃ template, compile .lenient
      ['{', 'd', '}', '/', '*', '*', '/', '{', 'n', '}', '-', '{', 'k', '}'] .insensitive =
        .ok template ∧
      template.names = [['d'], ['n'], ['k']] ∧
      template.match? ['a', '/', 'b', '/', 'x', '-', 'y', '-', 'z'] =
        some ⟨['a', '/', 'b', '/', 'x', '-', 'y', '-', 'z'],
          [(['d'], ['a']), (['n'], ['x']), (['k'], ['y', '-', 'z'])]⟩ :=
    ⟨⟨['{', 'd', '}', '/', '*', '*', '/', '{', 'n', '}', '-', '{', 'k', '}'],
      ⟨false, [.compound [.placeholder ['d']], .globstar,
        .compound [.placeholder ['n'], .literal ['-'], .placeholder ['k']]]⟩, .insensitive,
      ⟨[⟨⟨false, [.compound [.star], .globstar, .compound [.star, .literal ['-'], .star]]⟩,
        .insensitive⟩]⟩⟩,
      by decide +kernel, by decide +kernel, by decide +kernel⟩
  obtain ⟨template, compiled, names, matched⟩ := run
  have reporting : template.names ≠ [] := by simp [names]
  obtain ⟨-, -, -, -, first⟩ := (captures_first_decomposition compiled reporting _).1 _ matched
  exact ⟨template, compiled, reporting, _, matched, rfl, first⟩

end Template

end PathGlob
