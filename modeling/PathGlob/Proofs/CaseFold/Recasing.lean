import Mathlib.Data.List.Forall2
import PathGlob.Proofs.Glob.Segment
import PathGlob.Proofs.Path.Names

/-!
# Texts that differ in case

Two texts are recased versions of each other if their characters agree one by one after simple case
folding. Folding leaves separators and all characters with a meaning alone, so whatever looks at a
text for these only, such as cutting it into pieces or normalizing a path, comes to recased results.
-/
namespace PathGlob

set_option autoImplicit false

abbrev Text.Recased (left right : Text) : Prop := CaseMode.insensitive.Agrees left right

namespace CaseMode

variable {one other third : Char}

theorem agree_insensitive_iff : insensitive.agree one other = true ↔
    CaseFold.fold one = CaseFold.fold other := by
  rw [agree, Bool.or_eq_true, beq_iff_eq, beq_iff_eq, or_iff_right_of_imp]
  exact congrArg CaseFold.fold

theorem agree_symm (same : insensitive.agree one other = true) :
    insensitive.agree other one = true :=
  agree_insensitive_iff.mpr (agree_insensitive_iff.mp same).symm

theorem agree_trans {mode : CaseMode} (same : mode.agree one other = true)
    (recased : insensitive.agree other third = true) : insensitive.agree one third = true := by
  cases mode with
  | sensitive => rwa [beq_iff_eq.mp same]
  | insensitive =>
      rw [agree_insensitive_iff] at same recased ⊢
      exact same.trans recased

theorem eq_unfolded_iff {character : Char} (unfolded : character ∈ CaseFold.unfolded)
    (same : insensitive.agree one other = true) : one = character ↔ other = character := by
  rw [agree_insensitive_iff] at same
  rw [← CaseFold.fold_eq_unfolded_iff unfolded, same, CaseFold.fold_eq_unfolded_iff unfolded]

theorem beq_unfolded_eq {character : Char} (unfolded : character ∈ CaseFold.unfolded)
    (same : insensitive.agree one other = true) : (one == character) = (other == character) := by
  rw [Bool.eq_iff_iff, beq_iff_eq, beq_iff_eq]
  exact eq_unfolded_iff unfolded same

theorem agrees_refl (mode : CaseMode) (text : Text) : mode.Agrees text text :=
  List.forall₂_same.mpr fun character _ => agree_refl mode character

theorem Agrees.append {mode : CaseMode} {left right taken others : Text}
    (first : mode.Agrees left taken) (rest : mode.Agrees right others) :
    mode.Agrees (left ++ right) (taken ++ others) := List.rel_append first rest

theorem Agrees.of_append {mode : CaseMode} {left right taken : Text}
    (agrees : mode.Agrees (left ++ right) taken) :
    ∃ first rest, taken = first ++ rest ∧ mode.Agrees left first ∧ mode.Agrees right rest :=
  (agrees_append_iff mode left right taken).mp agrees

end CaseMode

def IgnoresCase (test : Char → Bool) : Prop :=
  ∀ one other, CaseMode.insensitive.agree one other = true → test one = test other

theorem equals_ignores_case {character : Char} (unfolded : character ∈ CaseFold.unfolded) :
    IgnoresCase (· == character) := fun _ _ => CaseMode.beq_unfolded_eq unfolded

theorem is_separator_ignores_case : IgnoresCase Path.isSeparator := by
  intro one other same
  rw [Path.isSeparator, Path.isSeparator, CaseMode.beq_unfolded_eq (by decide) same,
    CaseMode.beq_unfolded_eq (by decide) same]

theorem is_segment_character_ignores_case : IgnoresCase Regex.isSegmentCharacter := by
  intro one other same
  rw [Regex.isSegmentCharacter, Regex.isSegmentCharacter, bne, bne, bne, bne,
    CaseMode.beq_unfolded_eq (by decide) same, CaseMode.beq_unfolded_eq (by decide) same]

theorem is_special_ignores_case : IgnoresCase isSpecial := by
  intro one other same
  have unfolded : ∀ character ∈ ['[', ']', '{', '}', '*', '/', '\\', ';'],
      character ∈ CaseFold.unfolded := by simp [CaseFold.unfolded]
  rw [isSpecial, isSpecial, Bool.eq_iff_iff, List.contains_iff_mem, List.contains_iff_mem]
  constructor
  · intro member
    exact (CaseMode.eq_unfolded_iff (unfolded one member) same).mp rfl ▸ member
  · intro member
    exact (CaseMode.eq_unfolded_iff (unfolded other member) same).mpr rfl ▸ member

namespace Text

theorem recased_iff_map_fold {left right : Text} :
    Recased left right ↔ left.map CaseFold.fold = right.map CaseFold.fold := by
  simp only [Recased, CaseMode.Agrees, CaseMode.agree_insensitive_iff]
  rw [← List.forall₂_eq_eq_eq, List.forall₂_map_left_iff, List.forall₂_map_right_iff]

namespace Recased

variable {left right : Text}

theorem symm (recased : Recased left right) : Recased right left :=
  List.Forall₂.flip (recased.imp fun _ _ => CaseMode.agree_symm)

theorem forall_iff {test : Char → Bool} (ignores : IgnoresCase test) (answer : Bool)
    (recased : Recased left right) :
    (∀ character ∈ left, test character = answer) ↔
    ∀ character ∈ right, test character = answer := by
  induction recased with
  | nil => simp
  | cons same _ ih => rw [List.forall_mem_cons, List.forall_mem_cons, ih, ignores _ _ same]

theorem head_test {test : Char → Bool} (ignores : IgnoresCase test) (recased : Recased left right) :
    left.head?.map test = right.head?.map test := by
  cases recased with
  | nil => rfl
  | cons same _ => exact congrArg some (ignores _ _ same)

theorem eq_of_unfolded (recased : Recased left right)
    (unfolded : ∀ character ∈ left, character ∈ CaseFold.unfolded) : right = left := by
  induction recased with
  | nil => rfl
  | cons same _ ih =>
      rw [List.forall_mem_cons] at unfolded
      rw [ih unfolded.2, (CaseMode.eq_unfolded_iff unfolded.1 same).mp rfl]

theorem eq_unfolded_iff {text : Text} (unfolded : ∀ character ∈ text, character ∈ CaseFold.unfolded)
    (recased : Recased left right) : left = text ↔ right = text := by
  constructor
  · intro same
    subst same
    exact recased.eq_of_unfolded unfolded
  · intro same
    subst same
    exact recased.symm.eq_of_unfolded unfolded

theorem split {cut : Char → Bool} (ignores : IgnoresCase cut) (recased : Recased left right) :
    List.Forall₂ Recased (left.split cut) (right.split cut) := by
  induction recased with
  | nil => exact .cons .nil .nil
  | @cons one other left right same rest ih =>
      rw [Text.split, Text.split, ignores one other same]
      generalize Text.split cut left = pieces at ih ⊢
      generalize Text.split cut right = others at ih ⊢
      split
      · exact .cons .nil ih
      · cases ih with
        | nil => exact .cons (.cons same .nil) .nil
        | cons first others => exact .cons (.cons same first) others

end Recased

end Text

namespace Path

variable {path other : Text}

theorem starts_at_root_recased (recased : Text.Recased path other) :
    startsAtRoot path = startsAtRoot other := by
  have heads := congrArg (Option.any id) (recased.head_test is_separator_ignores_case)
  simpa [startsAtRoot, Option.any_map] using heads

theorem is_rooted_recased (recased : Text.Recased path other) : isRooted path = isRooted other := by
  cases recased with
  | nil => rfl
  | cons same _ => exact CaseMode.beq_unfolded_eq (by decide) same

theorem segments_recased (recased : Text.Recased path other) :
    List.Forall₂ Text.Recased (segments path) (segments other) := by
  apply List.rel_filter _ (recased.split is_separator_ignores_case)
  intro piece recasedPiece same
  have empty : piece = [] ↔ recasedPiece = [] := same.eq_unfolded_iff (by simp)
  have dot : piece = ['.'] ↔ recasedPiece = ['.'] :=
    same.eq_unfolded_iff (by simp [CaseFold.unfolded])
  simp [empty, dot]

theorem join_with_recased {names others : List Text}
    (recased : List.Forall₂ Text.Recased names others) :
    Text.Recased (Text.joinWith '/' names) (Text.joinWith '/' others) := by
  cases recased with
  | nil => exact .nil
  | cons first rest =>
      rw [join_with_cons, join_with_cons]
      apply first.append
      apply List.rel_flatMap rest
      intro name recasedName same
      exact .cons (CaseMode.agree_refl _ '/') same

theorem normalize_recased (recased : Text.Recased path other) :
    Text.Recased (normalize path) (normalize other) := by
  rw [normalize, normalize, starts_at_root_recased recased]
  exact .append (CaseMode.agrees_refl _ _) (join_with_recased (segments_recased recased))

end Path

end PathGlob
