import PathGlob.Proofs.Glob.Canonical
import PathGlob.Proofs.Glob.Pieces
import PathGlob.Proofs.Regex.Recasing

/-!
# Globs that differ in case

Recased texts spell recased globs, as long as no placeholder is among their parts: reading only asks
where the special characters are. The expression of a recased glob follows that of the glob once
case is ignored, part by part, and so does matching.
-/
namespace PathGlob

set_option autoImplicit false

open PathGlob.Path

inductive Part.Recased : Part → Part → Prop where
  | star : Recased .star .star
  | literal {text other : Text} (recased : Text.Recased text other) :
      Recased (.literal text) (.literal other)
  | oneOf {characters others : Text} (recased : Text.Recased characters others) :
      Recased (.oneOf characters) (.oneOf others)

inductive Component.Recased : Component → Component → Prop where
  | literal {text other : Text} (recased : Text.Recased text other) :
      Recased (.literal text) (.literal other)
  | compound {parts others : List Part} (recased : List.Forall₂ Part.Recased parts others) :
      Recased (.compound parts) (.compound others)
  | globstar : Recased .globstar .globstar

structure Glob.Recased (glob other : Glob) : Prop where
  rooted : glob.rooted = other.rooted
  components : List.Forall₂ Component.Recased glob.components other.components

theorem IsRun.recased {text other : Text} (run : IsRun text) (recased : Text.Recased text other) :
    IsRun other := by
  constructor
  · exact mt (recased.eq_unfolded_iff (by simp)).mpr run.nonempty
  · exact (recased.forall_iff is_special_ignores_case false).mp run.plain

namespace Part

theorem Recased.symm {part other : Part} (recased : part.Recased other) : other.Recased part := by
  cases recased with
  | star => exact .star
  | literal recased => exact .literal recased.symm
  | oneOf recased => exact .oneOf recased.symm

theorem Recased.proper {part other : Part} (recased : part.Recased other) (proper : part.Proper) :
    other.Proper := by
  cases recased with
  | star => trivial
  | literal recased => exact IsRun.recased proper recased
  | oneOf recased => exact IsRun.recased proper recased

theorem proper_recased {parts others : List Part} (recased : List.Forall₂ Recased parts others)
    (proper : ∀ part ∈ parts, part.Proper) : ∀ part ∈ others, part.Proper := by
  induction recased with
  | nil => exact List.forall_mem_nil _
  | cons first _ ih =>
      rw [List.forall_mem_cons] at proper ⊢
      exact ⟨first.proper proper.1, ih proper.2⟩

theorem exists_recased {part : Part} (anonymous : part.name? = none) {text : Text}
    (recased : Text.Recased part.print text) :
    ∃ other, part.Recased other ∧ other.print = text := by
  cases part with
  | star => exact ⟨.star, .star, (recased.eq_of_unfolded (by simp [print, CaseFold.unfolded])).symm⟩
  | literal run => exact ⟨.literal text, .literal recased, rfl⟩
  | oneOf characters =>
      rcases List.forall₂_cons_left_iff.mp recased with ⟨opening, rest, opens, recasedRest, rfl⟩
      rcases CaseMode.Agrees.of_append recasedRest
        with ⟨others, closing, rfl, recasedCharacters, closes⟩
      rw [Text.Recased.eq_of_unfolded closes (by simp [CaseFold.unfolded]),
        (CaseMode.eq_unfolded_iff (by decide) opens).mp rfl]
      exact ⟨.oneOf others, .oneOf recasedCharacters, rfl⟩
  | placeholder name => cases anonymous

theorem exists_recased_parts {parts : List Part} (anonymous : ∀ part ∈ parts, part.name? = none)
    {text : Text} (recased : Text.Recased (parts.flatMap print) text) :
    ∃ others, List.Forall₂ Recased parts others ∧ others.flatMap print = text := by
  induction parts generalizing text with
  | nil => exact ⟨[], .nil, (List.forall₂_nil_left_iff.mp recased).symm⟩
  | cons part parts ih =>
      rw [List.forall_mem_cons] at anonymous
      rcases recased.of_append with ⟨first, rest, rfl, recasedFirst, recasedRest⟩
      rcases exists_recased anonymous.1 recasedFirst with ⟨other, recasedPart, rfl⟩
      rcases ih anonymous.2 recasedRest with ⟨others, recasedParts, rfl⟩
      exact ⟨other :: others, .cons recasedPart recasedParts, rfl⟩

theorem Recased.runs_into {left right one other : Part} (recasedLeft : left.Recased one)
    (recasedRight : right.Recased other) : left.runsInto right = one.runsInto other := by
  cases recasedLeft <;> cases recasedRight <;> rfl

theorem apart_recased {parts others : List Part} (recased : List.Forall₂ Recased parts others)
    (apart : parts.IsChain Apart) : others.IsChain Apart := by
  induction recased with
  | nil => exact .nil
  | cons first rest ih =>
      cases rest with
      | nil => exact .singleton _
      | cons second rest =>
          rw [List.isChain_cons_cons] at apart ⊢
          refine ⟨?_, ih apart.2⟩
          rw [Apart, ← first.runs_into second]
          exact apart.1

theorem recased_regex {part other : Part} (recased : part.Recased other) :
    Regex.Recased (part.regex .silent) (other.regex .silent) := by
  cases recased with
  | star => exact .refl _
  | literal recased => exact Regex.recased_literal recased
  | oneOf recased => exact .group (Regex.recased_one_of recased)

theorem recased_regexes {parts others : List Part}
    (recased : List.Forall₂ Recased parts others) :
    List.Forall₂ Regex.Recased (parts.map (Part.regex .silent))
      (others.map (Part.regex .silent)) := by
  rw [List.forall₂_map_left_iff, List.forall₂_map_right_iff]
  exact recased.imp fun _ _ => recased_regex

theorem dotted_recased {before others : List Part} {stem : Text}
    (recased : List.Forall₂ Recased (before ++ [.literal (stem ++ ['.']), .star]) others) :
    ∃ otherBefore otherStem, others = otherBefore ++ [.literal (otherStem ++ ['.']), .star] ∧
      List.Forall₂ Recased before otherBefore ∧ Text.Recased stem otherStem := by
  induction before generalizing others with
  | nil =>
      cases recased with | cons first rest =>
      cases rest with | cons second none =>
      cases first with | literal dotted =>
      cases second with | star =>
      cases none
      rcases dotted.of_append with ⟨otherStem, dot, rfl, recasedStem, isDot⟩
      rw [(CaseMode.agrees_dot_iff _ _).mp isDot]
      exact ⟨[], otherStem, rfl, .nil, recasedStem⟩
  | cons part before ih =>
      rcases List.forall₂_cons_left_iff.mp recased with ⟨other, others, first, rest, rfl⟩
      rcases ih rest with ⟨otherBefore, otherStem, rfl, recasedBefore, recasedStem⟩
      exact ⟨other :: otherBefore, otherStem, rfl, .cons first recasedBefore, recasedStem⟩

/-- Recased parts end in a dot and `*` together, and have recased parts in front of it. -/
theorem dot_star_recased {parts others : List Part} (recased : List.Forall₂ Recased parts others) :
    Option.Rel
      (fun one other : List Part × Text => List.Forall₂ Recased one.1 other.1 ∧
        Text.Recased one.2 other.2)
      (dotStar? parts) (dotStar? others) := by
  have back : List.Forall₂ Recased others parts :=
    List.Forall₂.flip (recased.imp fun _ _ => Recased.symm)
  cases dotted : dotStar? parts with
  | some split =>
      rw [dot_star_eq_some_iff parts split.1 split.2] at dotted
      rw [dotted] at recased
      rcases dotted_recased recased with ⟨before, stem, same, recasedBefore, recasedStem⟩
      rw [(dot_star_eq_some_iff others before stem).mpr same]
      exact .some ⟨recasedBefore, recasedStem⟩
  | none =>
      cases otherDotted : dotStar? others with
      | none => exact .none
      | some split =>
          rw [dot_star_eq_some_iff others split.1 split.2] at otherDotted
          rw [otherDotted] at back
          rcases dotted_recased back with ⟨before, stem, same, -, -⟩
          rw [(dot_star_eq_some_iff parts before stem).mpr same] at dotted
          cases dotted

end Part

namespace Component

theorem recased_parts_regex (isLast : Bool) {parts others : List Part}
    (recased : List.Forall₂ Part.Recased parts others) :
    Regex.Recased (partsRegex .silent isLast parts) (partsRegex .silent isLast others) := by
  have splits := Part.dot_star_recased recased
  have whole : Regex.Recased _ _ := Regex.recased_concat (Part.recased_regexes recased)
  rw [partsRegex, partsRegex]
  cases isLast with
  | false => exact whole
  | true =>
      rw [if_pos rfl, if_pos rfl]
      generalize Part.dotStar? parts = split at splits ⊢
      generalize Part.dotStar? others = otherSplit at splits ⊢
      cases splits with
      | none => exact whole
      | some split =>
          apply Regex.recased_concat
          apply List.rel_append (Part.recased_regexes split.1)
          exact .cons (Regex.recased_literal split.2) (.cons (.refl _) .nil)

namespace Recased

variable {component other : Component}

theorem eq_literal_iff (recased : component.Recased other) {text : Text}
    (unfolded : ∀ character ∈ text, character ∈ CaseFold.unfolded) :
    component = .literal text ↔ other = .literal text := by
  cases recased with
  | literal recased => simpa using recased.eq_unfolded_iff unfolded
  | compound recased => simp
  | globstar => simp

theorem is_idle_eq (recased : component.Recased other) : component.isIdle = other.isIdle := by
  have empty : component = .literal [] ↔ other = .literal [] := recased.eq_literal_iff (by simp)
  have dot : component = .literal ['.'] ↔ other = .literal ['.'] :=
    recased.eq_literal_iff (by simp [CaseFold.unfolded])
  rw [isIdle, isIdle, Bool.eq_iff_iff]
  simp [empty, dot]

theorem anonymous (recased : component.Recased other) :
    ∀ part ∈ other.parts, part.name? = none := by
  cases recased with
  | literal recased => exact List.forall_mem_nil _
  | globstar => exact List.forall_mem_nil _
  | compound recased =>
      induction recased with
      | nil => exact List.forall_mem_nil _
      | cons first _ ih =>
          rw [parts, List.forall_mem_cons]
          refine ⟨?_, ih⟩
          cases first <;> rfl

end Recased

theorem anonymous_of_recased {components others : List Component}
    (recased : List.Forall₂ Recased components others) :
    ∀ part ∈ others.flatMap parts, part.name? = none := by
  induction recased with
  | nil => exact List.forall_mem_nil _
  | cons first _ ih =>
      rw [List.flatMap_cons, List.forall_mem_append]
      exact ⟨first.anonymous, ih⟩

/-- The piece that a component without names is written as, recased, has a recased component. -/
theorem WrittenAs.recased {piece other : Text} {component : Component}
    (written : WrittenAs piece component) (anonymous : ∀ part ∈ component.parts, part.name? = none)
    (recased : Text.Recased piece other) :
    ∃ otherComponent, WrittenAs other otherComponent ∧ component.Recased otherComponent := by
  rcases written with ⟨rfl, spelled, legible⟩
  cases component with
  | literal text =>
      have plain := (recased.forall_iff is_special_ignores_case false).mp spelled
      exact ⟨.literal other, ⟨rfl, plain, trivial⟩, .literal recased⟩
  | globstar =>
      rw [recased.eq_of_unfolded (by simp [Component.print, CaseFold.unfolded])]
      exact ⟨.globstar, ⟨rfl, trivial, trivial⟩, .globstar⟩
  | compound parts =>
      rcases Part.exists_recased_parts anonymous recased with ⟨others, recasedParts, rfl⟩
      refine ⟨.compound others, ⟨rfl, ⟨?_, ?_⟩, ?_, Part.apart_recased recasedParts legible.2⟩,
        .compound recasedParts⟩
      · intro none
        subst none
        exact spelled.1 (List.forall₂_nil_right_iff.mp recasedParts)
      · exact Part.proper_recased recasedParts spelled.2
      · intro text alone
        subst alone
        cases recasedParts with | cons first rest =>
        cases first with | literal same =>
        cases rest
        exact legible.1 _ rfl

theorem written_recased {pieces others : List Text} {components : List Component}
    (written : List.Forall₂ WrittenAs pieces components)
    (anonymous : ∀ part ∈ components.flatMap parts, part.name? = none)
    (recased : List.Forall₂ Text.Recased pieces others) :
    ∃ otherComponents, List.Forall₂ WrittenAs others otherComponents ∧
      List.Forall₂ Recased components otherComponents := by
  induction written generalizing others with
  | nil =>
      cases recased
      exact ⟨[], .nil, .nil⟩
  | cons first rest ih =>
      cases recased with | cons recasedPiece recasedPieces =>
      rw [List.flatMap_cons, List.forall_mem_append] at anonymous
      rcases first.recased anonymous.1 recasedPiece with ⟨other, otherWritten, recasedFirst⟩
      rcases ih anonymous.2 recasedPieces with ⟨others, othersWritten, recasedRest⟩
      exact ⟨other :: others, .cons otherWritten othersWritten, .cons recasedFirst recasedRest⟩

theorem Recased.eq_globstar_iff {component other : Component} (recased : component.Recased other) :
    component = .globstar ↔ other = .globstar := by
  cases recased <;> simp

theorem tidy_recased {components others : List Component}
    (recased : List.Forall₂ Recased components others) :
    List.Forall₂ Recased (tidy components) (tidy others) := by
  have kept : List.Forall₂ Recased (components.filter (!·.isIdle)) (others.filter (!·.isIdle)) := by
    apply List.rel_filter _ recased
    intro component other same
    simp only [same.is_idle_eq]
  rw [tidy, tidy, merge_eq_destutter, merge_eq_destutter]
  apply destutter_paired _ kept
  intro component other first next following second
  exact or_congr (not_congr first.eq_globstar_iff) (not_congr second.eq_globstar_iff)

theorem flat_map_parts_tidy (components : List Component) :
    (tidy components).flatMap parts = components.flatMap parts := by
  have merged : ∀ components, (merge components).flatMap parts = components.flatMap parts := by
    intro components
    fun_induction merge components with
    | case1 rest ih => exact ih
    | case2 component rest _ ih => rw [List.flatMap_cons, List.flatMap_cons, ih]
    | case3 => rfl
  rw [tidy, merged]
  induction components with
  | nil => rfl
  | cons component components ih =>
      rw [List.flatMap_cons, ← ih]
      by_cases idle : component.isIdle = true
      · have none : component.parts = [] := by
          cases component with
          | compound parts => cases idle
          | literal text => rfl
          | globstar => rfl
        rw [List.filter_cons_of_neg (by simpa using idle), none, List.nil_append]
      · rw [List.filter_cons_of_pos (by simpa using idle), List.flatMap_cons]

theorem name_regex_recased (isLast : Bool) {parts others : List Part}
    (recased : List.Forall₂ Part.Recased parts others) :
    Regex.Recased (nameRegex .sensitive isLast parts) (nameRegex .sensitive isLast others) :=
  Regex.recased_concat
    (.cons .textStart (.cons (recased_parts_regex isLast recased) (.cons .textEnd .nil)))

/-- Without regard to case, recased components compare names with recased expressions. -/
theorem selectors_recased {components others : List Component}
    (recased : List.Forall₂ Recased components others) {regex : Regex}
    (among : .named regex ∈ selectors .insensitive others) :
    ∃ body other, regex = .foldCase other ∧ Regex.Recased body other ∧
      .named (.foldCase body) ∈ selectors .insensitive components := by
  induction recased with
  | nil => cases among
  | @cons component other rest others first recased ih =>
      have last : rest.isEmpty = others.isEmpty := by
        cases recased <;> rfl
      rcases List.mem_cons.mp among with selects | later
      · cases first with
        | literal text =>
            rw [Selector.named.inj selects]
            exact ⟨_, _, rfl, name_regex_recased _ (.cons (.literal text) .nil),
              List.mem_cons.mpr (.inl (by rw [last]; rfl))⟩
        | compound parts =>
            rw [Selector.named.inj selects]
            exact ⟨_, _, rfl, name_regex_recased _ parts,
              List.mem_cons.mpr (.inl (by rw [last]; rfl))⟩
        | globstar => cases selects
      · obtain ⟨body, other, same, recasedBody, inside⟩ := ih later
        exact ⟨body, other, same, recasedBody, List.mem_cons_of_mem _ inside⟩

end Component

namespace Glob

theorem component_regexes_recased {components others : List Component}
    (recased : List.Forall₂ Component.Recased components others) (due opening : Bool) :
    List.Forall₂ Regex.Recased (componentRegexes .silent due opening components)
      (componentRegexes .silent due opening others) := by
  induction recased generalizing due opening with
  | nil => exact .nil
  | @cons component other rest others first recased ih =>
      have last : rest.isEmpty = others.isEmpty := by
        cases recased <;> rfl
      cases first with
      | globstar =>
          rw [componentRegexes, componentRegexes, last]
          exact List.rel_append (Regex.recased_all_self _) (ih opening false)
      | literal text =>
          exact List.rel_append (Regex.recased_all_self _)
            (.cons (Regex.recased_literal text) (ih true false))
      | compound parts =>
          rw [componentRegexes, componentRegexes, last]
          apply List.rel_append (Regex.recased_all_self _)
          exact .cons (Component.recased_parts_regex _ parts) (ih true false)

theorem subject_recased {glob other : Glob} (recased : glob.Recased other) {path otherPath : Text}
    (recasedPath : Text.Recased path otherPath) :
    Text.Recased (glob.subject path) (other.subject otherPath) := by
  rw [subject, subject, recased.rooted, is_rooted_recased recasedPath]
  split
  · exact recasedPath
  · exact .cons (CaseMode.agree_refl _ '/') recasedPath

/-- The expression of a glob that is read with regard to case is the one that is read without. -/
theorem regex_eq_under_case (glob : Glob) (mode : CaseMode) :
    glob.regex mode .silent = Regex.underCase mode (glob.regex .sensitive .silent) := by
  cases mode <;> rfl

theorem regex_recased {glob other : Glob} (recased : glob.Recased other) :
    Regex.Recased (glob.regex .sensitive .silent) (other.regex .sensitive .silent) := by
  apply Regex.recased_concat
  rw [recased.rooted]
  apply List.rel_append (List.rel_append (Regex.recased_all_self _) _) (Regex.recased_all_self _)
  exact component_regexes_recased recased.components true (!other.rooted)

theorem regex_found_recased {glob other : Glob} (recased : glob.Recased other) {mode : CaseMode}
    {text otherText : Text} (recasedText : Text.Recased text otherText)
    (found : (glob.regex mode .silent).found text = true) :
    (other.regex .insensitive .silent).found otherText = true := by
  rw [regex_eq_under_case] at found ⊢
  exact Regex.found_recased (regex_recased recased) recasedText found

theorem body_recased {text other : Text} (recased : Text.Recased text other) :
    Text.Recased (body text) (body other) := by
  rw [body, body, starts_at_root_recased recased]
  split
  · exact List.forall₂_drop 1 recased
  · exact recased

theorem Spells.recased {text other : Text} {components : List Component}
    (spells : Spells text components)
    (anonymous : ∀ part ∈ components.flatMap Component.parts, part.name? = none)
    (recased : Text.Recased text other) :
    ∃ others, Spells other others ∧ List.Forall₂ Component.Recased components others := by
  have pieces := (body_recased recased).split is_separator_ignores_case
  rcases Component.written_recased spells.pieces anonymous pieces
    with ⟨others, written, recasedComponents⟩
  have unfolded :
      ∀ character ∈ ['.', '.'], character ∈ CaseFold.unfolded := by simp [CaseFold.unfolded]
  have parent := mem_paired_iff recasedComponents fun same => same.eq_literal_iff unfolded
  have noParent := mt parent.mpr spells.noParent
  exact ⟨others, ⟨written, noParent⟩, recasedComponents⟩

theorem Recased.placeholders_eq_nil {glob other : Glob} (recased : glob.Recased other) :
    other.placeholders = [] := by
  rw [placeholders, List.filterMap_eq_nil_iff]
  exact Component.anonymous_of_recased recased.components

theorem parse_recased {text other : Text} {glob : Glob} (parsed : parse text = .ok glob)
    (anonymous : glob.placeholders = []) (recased : Text.Recased text other) :
    ∃ otherGlob, parse other = .ok otherGlob ∧ glob.Recased otherGlob := by
  rcases parse_eq_ok_iff.mp parsed with ⟨components, spells, nonempty, rfl⟩
  rw [placeholders, List.filterMap_eq_nil_iff, Component.flat_map_parts_tidy] at anonymous
  rcases spells.recased anonymous recased with ⟨others, otherSpells, recasedComponents⟩
  have tidied := Component.tidy_recased recasedComponents
  refine ⟨⟨startsAtRoot other, Component.tidy others⟩, ?_, starts_at_root_recased recased, tidied⟩
  refine parse_eq_ok_iff.mpr ⟨others, otherSpells, ?_, rfl⟩
  intro none
  rw [none, List.forall₂_nil_right_iff] at tidied
  exact nonempty tidied

end Glob

end PathGlob
