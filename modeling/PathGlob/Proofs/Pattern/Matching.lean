import Mathlib.Data.List.Infix
import PathGlob.Proofs.Glob.Acceptance
import PathGlob.Proofs.Pattern.Built

/-!
# What patterns match

A rooted glob describes the paths whose segments it accepts as a whole, a relative one the paths
that end in segments it accepts. Matching a path against a branch is shown to decide just that, with
one exception: a relative `**` alone is not held to start behind a separator, and matches the end of
a last segment that has a colon further in front.
-/
namespace PathGlob

set_option autoImplicit false

namespace Glob

open PathGlob.Path Regex

/-- Whether a path is described segment by segment, from the root on or at its end. -/
def Describes (mode : CaseMode) (glob : Glob) (path : Text) : Prop :=
  if glob.rooted then startsAtRoot path = true ∧ Accepts mode glob.components (segments path)
  else ∃ suffix, suffix <:+ segments path ∧ Accepts mode glob.components suffix

/--
Whether a relative `**` alone meets a path whose last segment has a colon, but not at its end.
-/
def CutsInto (glob : Glob) (path : Text) : Prop :=
  glob = ⟨false, [.globstar]⟩ ∧ ∃ before name, segments path = before ++ [name] ∧ ':' ∈ name ∧
    name.getLast? ≠ some ':'

theorem regex_found_iff (mode : CaseMode) (reporting : Reporting) (glob : Glob) (text : Text) :
    (glob.regex mode reporting).found text = true ↔
      ∃ before taken, text = before ++ taken ∧ (glob.rooted = true → before = []) ∧
        Takes mode (concat (componentRegexes reporting true (!glob.rooted) glob.components)) before
          taken [] := by
  have whole : ∀ before taken after,
      Takes .sensitive (glob.regex mode reporting) before taken after ↔
        (glob.rooted = true → before = []) ∧ after = [] ∧
          Takes mode
            (concat (componentRegexes reporting true (!glob.rooted) glob.components)) before
            taken [] := by
    intro before taken after
    rw [regex, takes_under_case]
    cases glob.rooted with
    | true =>
        rw [if_pos rfl, List.singleton_append, List.cons_append, takes_text_start_iff,
          takes_text_end_iff]
        constructor
        · intro takes
          obtain ⟨rfl, ends, inComponents⟩ := takes
          exact ⟨fun _ => rfl, ends, inComponents⟩
        · intro takes
          obtain ⟨starts, ends, inComponents⟩ := takes
          obtain rfl := starts rfl
          exact ⟨rfl, ends, inComponents⟩
    | false =>
        rw [if_neg Bool.false_ne_true, List.nil_append, takes_text_end_iff]
        simp
  rw [found_iff_takes]
  constructor
  · intro found
    obtain ⟨before, taken, after, same, takes⟩ := found
    obtain ⟨starts, rfl, inComponents⟩ := (whole _ _ _).mp takes
    exact ⟨before, taken, by simpa using same, starts, inComponents⟩
  · intro found
    obtain ⟨before, taken, same, starts, inComponents⟩ := found
    exact ⟨before, taken, [], by simpa using same, (whole _ _ _).mpr ⟨starts, rfl, inComponents⟩⟩

theorem suffix_of_slashed {segments : List Text} (free : ∀ name ∈ segments, '/' ∉ name)
    {before rest : Text} (same : slashed segments = before ++ '/' :: rest) :
    ∃ back, back <:+ segments ∧ '/' :: rest = slashed back := by
  induction segments generalizing before with
  | nil => simp at same
  | cons segment segments ih =>
      have shorter : ∀ {before : Text}, slashed segments = before ++ '/' :: rest →
          ∃ back, back <:+ segment :: segments ∧ '/' :: rest = slashed back := by
        intro before same
        obtain ⟨back, within, tail⟩ :=
          ih (fun name member => free name (List.mem_cons_of_mem segment member)) same
        exact ⟨back, within.trans (List.suffix_cons segment segments), tail⟩
      cases before with
      | nil => exact ⟨segment :: segments, List.suffix_refl _, same.symm⟩
      | cons first before =>
          rw [slashed_cons, List.cons_append, List.cons.injEq] at same
          rcases List.append_eq_append_iff.mp same.2 with ⟨gap, -, tail⟩ | ⟨gap, inName, tail⟩
          · exact shorter tail
          · cases gap with
            | nil =>
                have none : slashed segments = [] ++ '/' :: rest := tail.symm
                exact shorter none
            | cons next gap =>
                cases tail
                exact absurd (by simp [inName]) (free segment (by simp))

theorem takes_some_suffix_iff {mode : CaseMode} (reporting : Reporting)
    {components : List Component} (proper : ∀ component ∈ components, component.Proper)
    (nonempty : components ≠ []) {segments : List Text} (named : ∀ name ∈ segments, IsName name) :
    (∃ before taken, slashed segments = before ++ taken ∧
        Takes mode (concat (componentRegexes reporting true false components)) before taken []) ↔
      ∃ suffix, suffix <:+ segments ∧ Accepts mode components suffix := by
  constructor
  · intro ends
    obtain ⟨before, taken, same, takes⟩ := ends
    obtain ⟨rest, rfl⟩ := starts_with_slash_of_takes nonempty takes
    obtain ⟨back, within, tail⟩ :=
      suffix_of_slashed (fun name member => (named name member).slash_not_mem) same
    rw [tail] at takes
    have backNamed : ∀ name ∈ back, IsName name := fun name member =>
      named name (within.subset member)
    exact ⟨back, within, (takes_due_components_iff reporting proper backNamed before).mp takes⟩
  · intro accepted
    obtain ⟨suffix, ⟨front, rfl⟩, accepts⟩ := accepted
    have backNamed : ∀ name ∈ suffix, IsName name :=
      fun name member => named name (by simp [member])
    exact ⟨slashed front, slashed suffix, slashed_append front suffix,
      (takes_due_components_iff reporting proper backNamed _).mpr accepts⟩

/-- What `**` takes in front of other components can be left to what comes before them. -/
theorem takes_some_opening_iff {mode : CaseMode} (rest : Reading) (text : Text) :
    (∃ before taken, text = before ++ taken ∧ Both (Takes mode anyDirectories) rest before taken [])
      ↔ ∃ before taken, text = before ++ taken ∧ rest before taken [] := by
  constructor
  · intro ends
    obtain ⟨before, -, rfl, left, right, rfl, -, takes⟩ := ends
    exact ⟨before ++ left, right, (List.append_assoc ..).symm, by simpa using takes⟩
  · intro ends
    obtain ⟨before, taken, rfl, takes⟩ := ends
    exact ⟨before, taken, rfl, [], taken, rfl, .stop before _, by simpa using takes⟩

theorem takes_some_whole_segment_iff {mode : CaseMode} (text : Text) :
    (∃ before taken, text = before ++ taken ∧ Takes mode wholeSegment before taken []) ↔
      ∃ before last, text = before ++ [last] ∧ isSegmentCharacter last = true := by
  constructor
  · intro ends
    obtain ⟨before, taken, rfl, takes⟩ := ends
    obtain ⟨nonempty, inside⟩ := (both_in_segment_iff mode _ _ _).mp takes
    obtain ⟨init, last, rfl⟩ := (List.eq_nil_or_concat' taken).resolve_left nonempty
    exact ⟨before ++ init, last, (List.append_assoc ..).symm, inside last (by simp)⟩
  · intro ends
    obtain ⟨before, last, rfl, inside⟩ := ends
    exact ⟨before, [last], rfl,
      (both_in_segment_iff mode _ _ _).mpr ⟨by simp, by simpa using inside⟩⟩

theorem component_regexes_opening (reporting : Reporting) {component : Component}
    {rest : List Component} (other : component ≠ .globstar) :
    componentRegexes reporting true true (component :: rest) =
      componentRegexes reporting true false (component :: rest) := by
  cases component with
  | globstar => exact absurd rfl other
  | literal text => rfl
  | compound parts => rfl

theorem component_regexes_opening_globstar (reporting : Reporting) {rest : List Component}
    (inner : rest ≠ []) :
    componentRegexes reporting true true (.globstar :: rest) =
      anyDirectories :: componentRegexes reporting true false rest := by
  rw [componentRegexes, List.isEmpty_eq_false_iff.mpr inner]
  rfl

theorem accepts_globstar_suffix_iff (mode : CaseMode) (before : List Text) (name : Text) :
    (∃ suffix, suffix <:+ before ++ [name] ∧ Accepts mode [.globstar] suffix) ↔ ':' ∉ name := by
  constructor
  · intro accepted
    obtain ⟨suffix, within, accepts⟩ := accepted
    obtain ⟨nonempty, noColon⟩ := (accepts_last_globstar_iff suffix).mp accepts
    obtain ⟨init, last, rfl⟩ := (List.eq_nil_or_concat' suffix).resolve_left nonempty
    obtain ⟨front, same⟩ := within
    rw [← List.append_assoc, List.append_singleton_inj] at same
    rw [← same.2]
    exact noColon last (by simp)
  · intro noColon
    exact ⟨[name], List.suffix_append before [name],
      .last (List.cons_ne_nil _ _) (by simpa using noColon)⟩

end Glob

namespace Branch

open PathGlob.Path Regex

theorem rooted_matches_iff {branch : Branch} (proper : branch.glob.Proper)
    (rooted : branch.glob.rooted = true) {path : Text} (some : segments path ≠ []) :
    branch.matchesPath (normalize path) = true ↔
      startsAtRoot path = true ∧
      Glob.Accepts branch.mode branch.glob.components (segments path) := by
  have named : ∀ name ∈ segments path, IsName name := fun name member =>
    is_name_of_mem_segments member
  have text : branch.glob.subject (normalize path) = normalize path := by
    rw [Glob.subject, rooted, Bool.true_or, if_pos rfl]
  rw [matchesPath, text, regex, Glob.regex_found_iff, rooted]
  cases root : startsAtRoot path with
  | true =>
      rw [normalize_of_rooted root, absolute_eq_slashed some, and_iff_right rfl,
        ← Glob.takes_due_components_iff .silent proper.components named []]
      constructor
      · intro found
        obtain ⟨before, taken, same, starts, takes⟩ := found
        rw [starts rfl] at same takes
        rw [same]
        exact takes
      · intro takes
        exact ⟨[], _, rfl, fun _ => rfl, takes⟩
  | false =>
      constructor
      · intro found
        obtain ⟨before, taken, same, starts, takes⟩ := found
        have relative := is_rooted_normalize path
        rw [starts rfl, List.nil_append] at same
        obtain ⟨rest, rfl⟩ := Glob.starts_with_slash_of_takes proper.nonempty takes
        rw [root, same] at relative
        cases relative
      · intro impossible
        exact absurd impossible.1 Bool.false_ne_true

theorem relative_subject {branch : Branch} (relative : branch.glob.rooted = false) {path : Text}
    (some : segments path ≠ []) :
    branch.glob.subject (normalize path) = slashed (segments path) := by
  rw [Glob.subject, relative, Bool.false_or, is_rooted_normalize, ← absolute_eq_slashed some]
  cases root : startsAtRoot path with
  | true => exact normalize_of_rooted root
  | false => exact congrArg ('/' :: ·) (normalize_of_relative root)

/-- A relative branch, other than a lone `**`, matches behind a separator only. -/
theorem relative_matches_iff {branch : Branch} (proper : branch.glob.Proper)
    (relative : branch.glob.rooted = false) (several : branch.glob.components ≠ [.globstar])
    {path : Text} (some : segments path ≠ []) :
    branch.matchesPath (normalize path) = true ↔
      ∃ suffix, suffix <:+ segments path ∧
        Glob.Accepts branch.mode branch.glob.components suffix := by
  have named : ∀ name ∈ segments path, IsName name := fun name member =>
    is_name_of_mem_segments member
  have nonempty := proper.nonempty
  have parts := proper.components
  rw [matchesPath, relative_subject relative some, regex, Glob.regex_found_iff, relative]
  simp only [Bool.false_eq_true, false_implies, true_and, Bool.not_false]
  generalize branch.glob.components = components at *
  cases components with
  | nil => exact absurd rfl nonempty
  | cons component rest =>
      by_cases globstar : component = .globstar
      · subst globstar
        have inner : rest ≠ [] := fun none => several (none ▸ rfl)
        have restParts : ∀ component ∈ rest, component.Proper := fun component member =>
          parts component (List.mem_cons_of_mem _ member)
        simp only [Glob.component_regexes_opening_globstar .silent inner, takes_concat_cons_iff]
        rw [Glob.takes_some_opening_iff, Glob.takes_some_suffix_iff .silent restParts inner named]
        constructor
        · intro accepted
          obtain ⟨suffix, within, accepts⟩ := accepted
          exact ⟨suffix, within, .onward inner accepts⟩
        · intro accepted
          obtain ⟨suffix, within, accepts⟩ := accepted
          obtain ⟨shorter, inside, others⟩ := Glob.suffix_of_accepts_globstar inner accepts
          exact ⟨shorter, inside.trans within, others⟩
      · rw [Glob.component_regexes_opening .silent globstar,
          Glob.takes_some_suffix_iff .silent parts nonempty named]

/-- A lone relative `**` only asks for a last character that is no colon. -/
theorem lone_globstar_matches_iff {branch : Branch} (lone : branch.glob = ⟨false, [.globstar]⟩)
    {path : Text} {before : List Text} {name : Text} (ends : segments path = before ++ [name]) :
    branch.matchesPath (normalize path) = true ↔ name.getLast? ≠ some ':' := by
  have member : name ∈ segments path := by simp [ends]
  have named := is_name_of_mem_segments member
  have relative : branch.glob.rooted = false := by rw [lone]
  have regexes : Glob.componentRegexes .silent true true branch.glob.components =
      [anyDirectories, wholeSegment] := by
    rw [lone]
    rfl
  obtain ⟨init, last, rfl⟩ := (List.eq_nil_or_concat' name).resolve_left named.nonempty
  have noSlash : last ≠ '/' := by
    intro same
    exact named.slash_not_mem (by simp [same])
  rw [matchesPath, relative_subject relative (by simp [ends]), regex, Glob.regex_found_iff,
    relative]
  simp only [Bool.false_eq_true, false_implies, true_and, Bool.not_false, regexes,
    takes_concat_cons_iff]
  rw [Glob.takes_some_opening_iff]
  simp only [takes_concat_singleton_iff]
  rw [Glob.takes_some_whole_segment_iff, ends, slashed_append]
  have text : slashed before ++ slashed [init ++ [last]] =
      (slashed before ++ '/' :: init) ++ [last] := by simp
  have inSegment : isSegmentCharacter last = true ↔ last ≠ ':' := by
    simp [isSegmentCharacter, noSlash]
  rw [text, List.getLast?_concat, Ne, Option.some.injEq, ← Ne, ← inSegment]
  constructor
  · intro found
    obtain ⟨front, final, same, inside⟩ := found
    rw [(List.append_singleton_inj.mp same).2]
    exact inside
  · intro inside
    exact ⟨_, last, rfl, inside⟩

theorem lone_globstar_decides_iff {branch : Branch} (lone : branch.glob = ⟨false, [.globstar]⟩)
    {path : Text} (some : segments path ≠ []) :
    branch.matchesPath (normalize path) = true ↔
      branch.glob.Describes branch.mode path ∨ branch.glob.CutsInto path := by
  obtain ⟨before, name, ends⟩ := (List.eq_nil_or_concat' (segments path)).resolve_left some
  have describes : branch.glob.Describes branch.mode path ↔ ':' ∉ name := by
    rw [lone, Glob.Describes, if_neg Bool.false_ne_true, ends]
    exact Glob.accepts_globstar_suffix_iff branch.mode before name
  have cuts : branch.glob.CutsInto path ↔ ':' ∈ name ∧ name.getLast? ≠ Option.some ':' := by
    rw [Glob.CutsInto, ends, and_iff_right lone]
    constructor
    · intro cut
      obtain ⟨front, last, same, cut⟩ := cut
      rw [(List.append_singleton_inj.mp same).2]
      exact cut
    · intro cut
      exact ⟨before, name, rfl, cut⟩
  rw [lone_globstar_matches_iff lone ends, describes, cuts]
  constructor
  · intro noColon
    by_cases colon : ':' ∈ name
    · exact .inr ⟨colon, noColon⟩
    · exact .inl colon
  · intro either
    rcases either with free | cut
    · intro last
      exact free (List.mem_of_getLast? last)
    · exact cut.2

/--
Matching decides which paths a branch describes, except where a lone `**` cuts into a segment.
-/
theorem matches_normalized_iff {branch : Branch} (proper : branch.glob.Proper) {path : Text}
    (some : segments path ≠ []) :
    branch.matchesPath (normalize path) = true ↔
      branch.glob.Describes branch.mode path ∨ branch.glob.CutsInto path := by
  by_cases lone : branch.glob = ⟨false, [.globstar]⟩
  · exact lone_globstar_decides_iff lone some
  · have neverCuts : ¬branch.glob.CutsInto path := fun cut => lone cut.1
    rw [or_iff_left neverCuts, Glob.Describes]
    cases rooted : branch.glob.rooted with
    | true =>
        rw [if_pos rfl]
        exact rooted_matches_iff proper rooted some
    | false =>
        have several : branch.glob.components ≠ [.globstar] := by
          intro same
          apply lone
          rw [← rooted, ← same]
        rw [if_neg Bool.false_ne_true]
        exact relative_matches_iff proper rooted several some

end Branch

theorem Glob.CutsInto.not_described {mode : CaseMode} {glob : Glob} {path : Text}
    (cut : glob.CutsInto path) : ¬glob.Describes mode path := by
  obtain ⟨rfl, before, name, ends, colon, -⟩ := cut
  rw [Glob.Describes, if_neg Bool.false_ne_true, ends]
  intro accepted
  exact (Glob.accepts_globstar_suffix_iff mode before name).mp accepted colon

namespace Pattern

open PathGlob.Path

theorem matches_iff {pattern : Pattern} (proper : pattern.Proper) {path : Text}
    (some : segments path ≠ []) :
    pattern.matchesPath path = true ↔
      ∃ branch ∈ pattern.branches,
        branch.glob.Describes branch.mode path ∨ branch.glob.CutsInto path := by
  rw [matchesPath, List.any_eq_true]
  apply exists_congr
  intro branch
  apply and_congr_right
  intro member
  exact Branch.matches_normalized_iff (proper.parsed branch member).proper some

theorem alternatives_of_single {text : Text} (single : ';' ∉ text) (nonempty : text ≠ []) :
    alternatives text = [text] := by
  have kept : ∀ character ∈ text, (character == ';') = false := by
    intro character member
    rw [beq_eq_false_iff_ne]
    intro same
    exact single (same ▸ member)
  rw [alternatives, Text.split_of_none _ text kept]
  simp [nonempty]

theorem compile_single_eq_ok {engine : Engine} {text : Text} (single : ';' ∉ text) {mode : CaseMode}
    {pattern : Pattern} (compiled : compile engine text mode = .ok pattern) :
    ∃ glob, Glob.parse text = .ok glob ∧ pattern.branches = [⟨glob, mode⟩] := by
  obtain ⟨branches, mapped, nonempty, rfl⟩ := compile_eq_ok compiled
  have paired := map_m_eq_ok_iff.mp mapped
  have some : text ≠ [] := by
    intro none
    subst none
    cases mapped
    exact nonempty rfl
  rw [alternatives_of_single single some] at paired
  obtain ⟨branch, others, first, rest, rfl⟩ := List.forall₂_cons_left_iff.mp paired
  obtain rfl := List.forall₂_nil_left_iff.mp rest
  obtain ⟨rfl, parsed, -⟩ := Branch.compile_eq_ok_iff.mp first
  exact ⟨branch.glob, (Branch.parse_eq_ok_iff.mp parsed).1, rfl⟩

/--
A pattern of one branch matches the paths that its components accept, from the root on if it is
rooted, behind a separator if it is relative. A relative `**` alone also matches where it cuts into
the last segment, and such paths are never described.
-/
theorem single_branch_matches_iff {engine : Engine} {text : Text} (single : ';' ∉ text)
    {mode : CaseMode} {pattern : Pattern} (compiled : compile engine text mode = .ok pattern) :
    ∃ glob, Glob.parse text = .ok glob ∧ ∀ path, segments path ≠ [] →
      (pattern.matchesPath path = true ↔ glob.Describes mode path ∨ glob.CutsInto path) ∧
        (glob.CutsInto path → ¬glob.Describes mode path) := by
  obtain ⟨glob, parsed, only⟩ := compile_single_eq_ok single compiled
  refine ⟨glob, parsed, fun path some => ⟨?_, Glob.CutsInto.not_described⟩⟩
  rw [matches_iff (compile_proper compiled) some, only]
  simp

/-- The pattern `/a*/**` read without regard to case, for paths that differ from it in case. -/
theorem single_branch_matches_insensitive :
    ∃ pattern glob, compile .lenient ['/', 'a', '*', '/', '*', '*'] .insensitive = .ok pattern ∧
      Glob.parse ['/', 'a', '*', '/', '*', '*'] = .ok glob ∧
      (pattern.matchesPath ['/', 'A', 'b', '/', 'c'] = true ↔
        glob.Describes .insensitive ['/', 'A', 'b', '/', 'c'] ∨
          glob.CutsInto ['/', 'A', 'b', '/', 'c']) := by
  have compiled : compile .lenient ['/', 'a', '*', '/', '*', '*'] .insensitive =
      .ok ⟨[⟨⟨true, [.compound [.literal ['a'], .star], .globstar]⟩, .insensitive⟩]⟩ := by
    decide +kernel
  obtain ⟨glob, parsed, matching⟩ := single_branch_matches_iff (by decide) compiled
  exact ⟨_, glob, compiled, parsed, (matching ['/', 'A', 'b', '/', 'c'] (by decide)).1⟩

/-- The pattern `**` matches `/a:b` from the middle of its only segment on. -/
theorem lone_globstar_matches_inside_segment :
    ∃ pattern glob, compile .lenient ['*', '*'] .sensitive = .ok pattern ∧
      Glob.parse ['*', '*'] = .ok glob ∧ segments ['/', 'a', ':', 'b'] ≠ [] ∧
      pattern.matchesPath ['/', 'a', ':', 'b'] = true ∧
      ¬glob.Describes .sensitive ['/', 'a', ':', 'b'] := by
  have cut : Glob.CutsInto ⟨false, [.globstar]⟩ ['/', 'a', ':', 'b'] :=
    ⟨rfl, [], ['a', ':', 'b'], by decide, by decide, by decide⟩
  exact ⟨⟨[⟨⟨false, [.globstar]⟩, .sensitive⟩]⟩, ⟨false, [.globstar]⟩, by decide +kernel,
    by decide +kernel, by decide, by decide, cut.not_described⟩

end Pattern

end PathGlob
