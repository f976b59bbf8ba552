import PathGlob.Proofs.Glob.Segment
import PathGlob.Proofs.Path.Names

/-!
# Matching segment by segment

States which lists of segments the components of a glob accept, one component after the other, and
shows that the flat expression of the glob takes a path exactly when its components accept the
segments. Each component is due a separator or follows one, so the lemmas speak of what remains of
a path in either position: `slashed` with the separator, `joined` behind it.
-/
namespace PathGlob

set_option autoImplicit false

/--
Whether components accept segments, each in turn. A last `**` stands for one segment at least.
-/
inductive Glob.Accepts (mode : CaseMode) : List Component → List Text → Prop where
  | nothing : Accepts mode [] []
  | literal {text segment : Text} {rest : List Component} {segments : List Text}
      (agrees : mode.Agrees text segment) (more : Accepts mode rest segments) :
      Accepts mode (.literal text :: rest) (segment :: segments)
  | compound {parts : List Part} {segment : Text} {rest : List Component} {segments : List Text}
      (described : Component.DescribeSegment mode rest.isEmpty parts segment)
      (more : Accepts mode rest segments) :
      Accepts mode (.compound parts :: rest) (segment :: segments)
  | skip {segment : Text} {rest : List Component} {segments : List Text} (inner : rest ≠ [])
      (noColon : ':' ∉ segment) (more : Accepts mode (.globstar :: rest) segments) :
      Accepts mode (.globstar :: rest) (segment :: segments)
  | onward {rest : List Component} {segments : List Text} (inner : rest ≠ [])
      (more : Accepts mode rest segments) : Accepts mode (.globstar :: rest) segments
  | last {segments : List Text} (nonempty : segments ≠ [])
      (noColon : ∀ segment ∈ segments, ':' ∉ segment) : Accepts mode [.globstar] segments

namespace Glob

open PathGlob.Path Regex

variable {mode : CaseMode}

theorem accepts_nothing_iff (segments : List Text) : Accepts mode [] segments ↔ segments = [] := by
  constructor
  · intro accepts
    cases accepts
    rfl
  · intro none
    subst none
    exact .nothing

theorem not_accepts_nil {components : List Component} (nonempty : components ≠ []) :
    ¬Accepts mode components [] := by
  intro accepts
  induction components with
  | nil => exact nonempty rfl
  | cons component rest ih =>
      cases accepts with
      | onward inner more => exact ih inner more
      | last some => exact some rfl

theorem accepts_literal_iff (text segment : Text) (rest : List Component) (segments : List Text) :
    Accepts mode (.literal text :: rest) (segment :: segments) ↔
      mode.Agrees text segment ∧ Accepts mode rest segments := by
  constructor
  · intro accepts
    cases accepts with
    | literal agrees more => exact ⟨agrees, more⟩
  · intro both
    exact .literal both.1 both.2

theorem accepts_compound_iff (parts : List Part) (segment : Text) (rest : List Component)
    (segments : List Text) :
    Accepts mode (.compound parts :: rest) (segment :: segments) ↔
      Component.DescribeSegment mode rest.isEmpty parts segment ∧ Accepts mode rest segments := by
  constructor
  · intro accepts
    cases accepts with
    | compound described more => exact ⟨described, more⟩
  · intro both
    exact .compound both.1 both.2

theorem accepts_globstar_iff {rest : List Component} (inner : rest ≠ []) (segment : Text)
    (segments : List Text) :
    Accepts mode (.globstar :: rest) (segment :: segments) ↔
      Accepts mode rest (segment :: segments) ∨
        ':' ∉ segment ∧ Accepts mode (.globstar :: rest) segments := by
  constructor
  · intro accepts
    cases accepts with
    | skip _ noColon more => exact .inr ⟨noColon, more⟩
    | onward _ more => exact .inl more
    | last => exact absurd rfl inner
  · intro either
    rcases either with more | ⟨noColon, more⟩
    · exact .onward inner more
    · exact .skip inner noColon more

theorem accepts_last_globstar_iff (segments : List Text) :
    Accepts mode [.globstar] segments ↔ segments ≠ [] ∧ ∀ segment ∈ segments, ':' ∉ segment := by
  constructor
  · intro accepts
    cases accepts with
    | skip inner => exact absurd rfl inner
    | onward inner => exact absurd rfl inner
    | last nonempty noColon => exact ⟨nonempty, noColon⟩
  · intro both
    exact .last both.1 both.2

theorem suffix_of_accepts_globstar {rest : List Component} (inner : rest ≠ [])
    {segments : List Text} (accepts : Accepts mode (.globstar :: rest) segments) :
    ∃ suffix, suffix <:+ segments ∧ Accepts mode rest suffix := by
  induction segments with
  | nil => exact absurd accepts (not_accepts_nil (by simp))
  | cons segment segments ih =>
      rcases (accepts_globstar_iff inner segment segments).mp accepts with more | ⟨-, more⟩
      · exact ⟨_, List.suffix_refl _, more⟩
      · obtain ⟨suffix, within, accepted⟩ := ih more
        exact ⟨suffix, within.trans (List.suffix_cons _ _), accepted⟩

def AtBoundary (text : Text) : Prop := text = [] ∨ ∃ rest, text = '/' :: rest

theorem at_boundary_slashed (segments : List Text) : AtBoundary (slashed segments) := by
  cases segments with
  | nil => exact .inl rfl
  | cons segment segments => exact .inr ⟨_, slashed_cons segment segments⟩

theorem append_at_boundary_inj {left right leftRest rightRest : Text} (leftFree : '/' ∉ left)
    (rightFree : '/' ∉ right) (leftEnds : AtBoundary leftRest) (rightEnds : AtBoundary rightRest)
    (same : left ++ leftRest = right ++ rightRest) : left = right ∧ leftRest = rightRest := by
  induction left generalizing right with
  | nil =>
      cases right with
      | nil => exact ⟨rfl, same⟩
      | cons first right =>
          rcases leftEnds with rfl | ⟨rest, rfl⟩
          · cases same
          · cases same
            simp at rightFree
  | cons first left ih =>
      cases right with
      | nil =>
          rcases rightEnds with rfl | ⟨rest, rfl⟩
          · cases same
          · cases same
            simp at leftFree
      | cons other right =>
          rw [List.cons_append, List.cons_append, List.cons.injEq] at same
          obtain ⟨rfl, rest⟩ := same
          rw [List.mem_cons, not_or] at leftFree rightFree
          obtain ⟨rfl, tails⟩ := ih leftFree.2 rightFree.2 rest
          exact ⟨rfl, tails⟩

theorem takes_slash_iff (parts : List Regex) (before taken after : Text) :
    Takes mode (concat (.character '/' :: parts)) before taken after ↔
      ∃ rest, taken = '/' :: rest ∧ Takes mode (concat parts) (before ++ ['/']) rest after := by
  rw [takes_concat_cons_iff]
  constructor
  · intro takes
    obtain ⟨-, rest, rfl, ⟨next, rfl, agrees⟩, more⟩ := takes
    rw [CaseMode.agree_unfolded_left_iff mode (by decide)] at agrees
    subst agrees
    exact ⟨rest, rfl, more⟩
  · intro takes
    obtain ⟨rest, rfl, more⟩ := takes
    exact ⟨['/'], rest, rfl, ⟨'/', rfl, CaseMode.agree_refl mode '/'⟩, more⟩

theorem component_regexes_due (reporting : Reporting) (component : Component)
    (rest : List Component) :
    componentRegexes reporting true false (component :: rest) =
      .character '/' :: componentRegexes reporting false false (component :: rest) := by
  cases component <;> rfl

theorem starts_with_slash_of_takes {reporting : Reporting} {components : List Component}
    (nonempty : components ≠ []) {before taken after : Text}
    (takes : Takes mode (concat (componentRegexes reporting true false components)) before taken
      after) : ∃ rest, taken = '/' :: rest := by
  cases components with
  | nil => exact absurd rfl nonempty
  | cons component rest =>
      rw [component_regexes_due, takes_slash_iff] at takes
      obtain ⟨others, same, -⟩ := takes
      exact ⟨others, same⟩

theorem at_boundary_of_takes_components {reporting : Reporting} {components : List Component}
    {before taken after : Text}
    (takes : Takes mode (concat (componentRegexes reporting true false components)) before taken
      after) : AtBoundary taken := by
  cases components with
  | nil => exact .inl takes
  | cons component rest => exact .inr (starts_with_slash_of_takes (List.cons_ne_nil _ _) takes)

/-- An expression for one segment takes the first one and leaves the others to what follows. -/
theorem takes_segment_then_iff {reporting : Reporting} {regex : Regex} {language : Text → Prop}
    (takesSegment : TakesJust mode regex fun taken => '/' ∉ taken ∧ language taken)
    (rest : List Component) {segment : Text} (free : '/' ∉ segment) (segments : List Text)
    (before : Text) :
    Takes mode (concat (regex :: componentRegexes reporting true false rest)) before
        (segment ++ slashed segments) [] ↔
      language segment ∧
        Takes mode (concat (componentRegexes reporting true false rest)) (before ++ segment)
          (slashed segments) [] := by
  rw [takes_concat_cons_iff]
  constructor
  · intro takes
    obtain ⟨left, right, same, first, more⟩ := takes
    obtain ⟨leftFree, described⟩ := (takesSegment _ _ _).mp first
    obtain ⟨rfl, rfl⟩ := append_at_boundary_inj free leftFree (at_boundary_slashed segments)
      (at_boundary_of_takes_components more) same
    exact ⟨described, more⟩
  · intro takes
    exact ⟨segment, slashed segments, rfl, (takesSegment _ _ _).mpr ⟨free, takes.1⟩, takes.2⟩

theorem rounds_then_iff (round rest : Reading) (before taken after : Text) :
    Both (Rounds round) rest before taken after ↔
      rest before taken after ∨ Both round (Both (Rounds round) rest) before taken after := by
  constructor
  · intro both
    obtain ⟨left, right, rfl, rounds, inRest⟩ := both
    generalize behind : right ++ after = following at rounds
    cases rounds with
    | stop => exact .inl (by simpa using inRest)
    | @again _ first second _ once more =>
        subst behind
        rw [← List.append_assoc] at once inRest
        exact .inr
          ⟨first, second ++ right, List.append_assoc .., once, second, right, rfl, more, inRest⟩
  · intro either
    rcases either with inRest | ⟨first, -, rfl, once, second, right, rfl, more, inRest⟩
    · exact ⟨[], taken, rfl, .stop _ _, by simpa using inRest⟩
    · rw [List.append_assoc] at once inRest
      exact ⟨first ++ second, right, (List.append_assoc ..).symm, .again once more, inRest⟩

theorem takes_directory_iff (before taken after : Text) :
    Takes mode (.group (.sequence (.most .inSegment) (.character '/'))) before taken after ↔
      ∃ name, taken = name ++ ['/'] ∧ name ≠ [] ∧ '/' ∉ name ∧ ':' ∉ name := by
  constructor
  · intro takes
    obtain ⟨name, -, rfl, inName, next, rfl, agrees⟩ := takes
    rw [CaseMode.agree_unfolded_left_iff mode (by decide)] at agrees
    subst agrees
    exact ⟨name, rfl, (takes_just_whole_segment mode _ _ _).mp inName⟩
  · intro takes
    obtain ⟨name, rfl, whole⟩ := takes
    exact ⟨name, ['/'], rfl, (takes_just_whole_segment mode _ _ _).mpr whole, '/', rfl,
      CaseMode.agree_refl mode '/'⟩

theorem takes_directories_then_iff (rest : Reading) {segment : Text} (named : IsName segment)
    (segments : List Text) (before : Text) :
    Both (Takes mode anyDirectories) rest before (segment ++ slashed segments) [] ↔
      rest before (segment ++ slashed segments) [] ∨
        ':' ∉ segment ∧ ∃ next others, segments = next :: others ∧
          Both (Takes mode anyDirectories) rest (before ++ (segment ++ ['/']))
            (next ++ slashed others) [] := by
  refine (rounds_then_iff _ _ _ _ _).trans (or_congr_right ?_)
  constructor
  · intro both
    obtain ⟨left, right, same, once, more⟩ := both
    obtain ⟨name, rfl, -, noSlash, noColon⟩ := (takes_directory_iff _ _ _).mp once
    rw [List.append_assoc, List.singleton_append] at same
    obtain ⟨rfl, tails⟩ := append_at_boundary_inj named.slash_not_mem noSlash
      (at_boundary_slashed segments) (.inr ⟨right, rfl⟩) same
    cases segments with
    | nil => cases tails
    | cons next others =>
        rw [slashed_cons, List.cons.injEq] at tails
        rw [← tails.2] at more
        exact ⟨noColon, next, others, rfl, more⟩
  · intro further
    obtain ⟨noColon, next, others, rfl, more⟩ := further
    refine ⟨segment ++ ['/'], next ++ slashed others, by simp, ?_, more⟩
    exact (takes_directory_iff _ _ _).mpr
      ⟨segment, rfl, named.nonempty, named.slash_not_mem, noColon⟩

theorem takes_last_globstar_iff {segment : Text} {segments : List Text}
    (named : ∀ name ∈ segment :: segments, IsName name) (before : Text) :
    Both (Takes mode anyDirectories) (Takes mode wholeSegment) before
        (segment ++ slashed segments) [] ↔
      ∀ name ∈ segment :: segments, ':' ∉ name := by
  induction segments generalizing segment before with
  | nil =>
      have first := named segment (by simp)
      rw [takes_directories_then_iff _ first, takes_just_whole_segment mode]
      simp [first.nonempty, first.slash_not_mem]
  | cons next segments ih =>
      have later : ∀ name ∈ next :: segments, IsName name := fun name member =>
        named name (List.mem_cons_of_mem segment member)
      rw [takes_directories_then_iff _ (named segment (by simp)), takes_just_whole_segment mode]
      constructor
      · intro either
        rcases either with whole | ⟨noColon, other, others, same, more⟩
        · exact absurd whole.2.1 (by simp)
        · cases same
          exact List.forall_mem_cons.mpr ⟨noColon, (ih later _).mp more⟩
      · intro noColon
        obtain ⟨first, others⟩ := List.forall_mem_cons.mp noColon
        exact .inr ⟨first, next, segments, rfl, (ih later _).mpr others⟩

theorem takes_globstar_iff {rest : List Component} (inner : rest ≠ []) (reading : Reading)
    (takesRest : ∀ (segment : Text) (segments : List Text) (before : Text),
      (∀ name ∈ segment :: segments, IsName name) →
        (reading before (segment ++ slashed segments) [] ↔ Accepts mode rest (segment :: segments)))
    {segment : Text} {segments : List Text} (named : ∀ name ∈ segment :: segments, IsName name)
    (before : Text) :
    Both (Takes mode anyDirectories) reading before (segment ++ slashed segments) [] ↔
      Accepts mode (.globstar :: rest) (segment :: segments) := by
  induction segments generalizing segment before with
  | nil =>
      have none : ¬Accepts mode (.globstar :: rest) [] := not_accepts_nil (by simp)
      rw [takes_directories_then_iff _ (named segment (by simp)), takesRest _ _ _ named,
        accepts_globstar_iff inner]
      simp [none]
  | cons next segments ih =>
      have later : ∀ name ∈ next :: segments, IsName name := fun name member =>
        named name (List.mem_cons_of_mem segment member)
      rw [takes_directories_then_iff _ (named segment (by simp)), takesRest _ _ _ named,
        accepts_globstar_iff inner]
      apply or_congr_right
      apply and_congr_right'
      constructor
      · intro further
        obtain ⟨other, rest, same, more⟩ := further
        cases same
        exact (ih later _).mp more
      · intro more
        exact ⟨next, segments, rfl, (ih later _).mpr more⟩

theorem takes_due_iff_of_behind {reporting : Reporting} {components : List Component}
    (behind : ∀ (segment : Text) (segments : List Text) (before : Text),
      (∀ name ∈ segment :: segments, IsName name) →
        (Takes mode (concat (componentRegexes reporting false false components)) before
            (segment ++ slashed segments) [] ↔ Accepts mode components (segment :: segments)))
    {segments : List Text} (named : ∀ name ∈ segments, IsName name) (before : Text) :
    Takes mode (concat (componentRegexes reporting true false components)) before
        (slashed segments) [] ↔ Accepts mode components segments := by
  cases components with
  | nil =>
      rw [accepts_nothing_iff]
      change slashed segments = [] ↔ _
      cases segments <;> simp
  | cons component rest =>
      rw [component_regexes_due, takes_slash_iff]
      cases segments with
      | nil => simp [not_accepts_nil]
      | cons segment segments =>
          simp only [slashed_cons, List.cons.injEq, true_and, exists_eq_left',
            behind segment segments _ named]

/-- Behind a separator, the expressions of components take the segments that these accept. -/
theorem takes_components_iff (reporting : Reporting) {components : List Component}
    (proper : ∀ component ∈ components, component.Proper) {segment : Text} {segments : List Text}
    (named : ∀ name ∈ segment :: segments, IsName name) (before : Text) :
    Takes mode (concat (componentRegexes reporting false false components)) before
        (segment ++ slashed segments) [] ↔
      Accepts mode components (segment :: segments) := by
  induction components generalizing segment segments before with
  | nil =>
      have nonempty := (named segment (by simp)).nonempty
      rw [accepts_nothing_iff]
      change segment ++ slashed segments = [] ↔ _
      simp [nonempty]
  | cons component rest ih =>
      have first := named segment (by simp)
      have restProper := fun other member => proper other (List.mem_cons_of_mem component member)
      have behind := fun segment segments before
          (named : ∀ name ∈ segment :: segments, IsName name) => ih restProper named before
      have laterNamed : ∀ name ∈ segments, IsName name := fun name member =>
        named name (List.mem_cons_of_mem segment member)
      have due := takes_due_iff_of_behind behind laterNamed (before ++ segment)
      cases component with
      | literal text =>
          have spelled := (proper (.literal text) (by simp)).spelled
          have readable : (Part.literal text).Readable := fun slash =>
            absurd (spelled '/' slash) (by decide)
          have takesLiteral : TakesJust mode (Regex.literal text) fun taken =>
              '/' ∉ taken ∧ mode.Agrees text taken := Part.takes_just_regex mode reporting readable
          rw [accepts_literal_iff, ← due]
          exact takes_segment_then_iff takesLiteral rest first.slash_not_mem segments before
      | compound parts =>
          have spelled := (proper (.compound parts) (by simp)).spelled
          have takesParts :=
            Component.takes_just_parts_regex mode reporting rest.isEmpty spelled.2
          rw [accepts_compound_iff, ← due]
          exact takes_segment_then_iff takesParts rest first.slash_not_mem segments before
      | globstar =>
          cases rest with
          | nil =>
              rw [accepts_last_globstar_iff, and_iff_right (List.cons_ne_nil _ _),
                ← takes_last_globstar_iff named before]
              refine (takes_concat_cons_iff mode _ _ before _ []).trans ?_
              exact both_congr_right fun left right _ =>
                takes_concat_singleton_iff mode wholeSegment (before ++ left) right []
          | cons second rest =>
              rw [← takes_globstar_iff (List.cons_ne_nil second rest) _ behind named before]
              exact takes_concat_cons_iff mode _ _ before _ []

theorem takes_due_components_iff (reporting : Reporting) {components : List Component}
    (proper : ∀ component ∈ components, component.Proper) {segments : List Text}
    (named : ∀ name ∈ segments, IsName name) (before : Text) :
    Takes mode (concat (componentRegexes reporting true false components)) before
        (slashed segments) [] ↔ Accepts mode components segments :=
  takes_due_iff_of_behind
    (fun _ _ before named => takes_components_iff reporting proper named before)
    named before

end Glob

end PathGlob
