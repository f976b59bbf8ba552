import PathGlob.Proofs.CaseFold.Recasing

/-!
# Expressions read without regard to case

What an expression takes in some case mode, any recased version of it takes from any recased version
of the text once case is ignored. Classes of characters have no part in this, since what they leave
out has no case; literal characters are compared after folding, on which recased ones agree.
-/
namespace PathGlob.Regex

set_option autoImplicit false

open PathGlob.Text

/--
Whether what one reading takes, another takes after everything around it and in it is recased.
-/
def Follows (one other : Reading) : Prop :=
  ∀ ⦃before taken after otherBefore otherTaken otherAfter : Text⦄, Recased before otherBefore →
    Recased taken otherTaken → Recased after otherAfter → one before taken after →
      other otherBefore otherTaken otherAfter

theorem follows_both {one other first second : Reading} (start : Follows one first)
    (rest : Follows other second) : Follows (Both one other) (Both first second) := by
  intro before taken after otherBefore otherTaken otherAfter recasedBefore recasedTaken
    recasedAfter both
  rcases both with ⟨left, right, rfl, inOne, inOther⟩
  rcases recasedTaken.of_append with ⟨otherLeft, otherRight, rfl, recasedLeft, recasedRight⟩
  exact ⟨otherLeft, otherRight, rfl,
    start recasedBefore recasedLeft (recasedRight.append recasedAfter) inOne,
    rest (recasedBefore.append recasedLeft) recasedRight recasedAfter inOther⟩

theorem follows_rounds {one other : Reading} (each : Follows one other) :
    Follows (Rounds one) (Rounds other) := by
  intro before taken after otherBefore otherTaken otherAfter recasedBefore recasedTaken
    recasedAfter rounds
  induction rounds generalizing otherBefore otherTaken with
  | stop =>
      cases recasedTaken
      exact .stop _ _
  | again once _ ih =>
      rcases recasedTaken.of_append with ⟨first, second, rfl, recasedFirst, recasedSecond⟩
      exact .again (each recasedBefore recasedFirst (recasedSecond.append recasedAfter) once)
        (ih (recasedBefore.append recasedFirst) recasedSecond recasedAfter)

theorem follows_either {one other first second : Reading} (start : Follows one first)
    (rest : Follows other second) :
    Follows (fun before taken after => one before taken after ∨ other before taken after)
      (fun before taken after => first before taken after ∨ second before taken after) := by
  intro _ _ _ _ _ _ recasedBefore recasedTaken recasedAfter either
  exact either.imp (start recasedBefore recasedTaken recasedAfter)
    (rest recasedBefore recasedTaken recasedAfter)

theorem follows_character {one other : Char → Bool}
    (follows : ∀ first second, CaseMode.insensitive.agree first second = true → one first = true →
      other second = true) :
    Follows (fun _ taken _ => ∃ next, taken = [next] ∧ one next = true)
      (fun _ taken _ => ∃ next, taken = [next] ∧ other next = true) := by
  intro _ _ _ _ _ _ _ recasedTaken _ single
  rcases single with ⟨next, rfl, accepted⟩
  rcases List.forall₂_cons_left_iff.mp recasedTaken with ⟨recased, rest, same, none, rfl⟩
  rw [List.forall₂_nil_left_iff.mp none]
  exact ⟨recased, rfl, follows next recased same accepted⟩

/-- Whether expressions are the same apart from characters that agree after folding. -/
inductive Recased : Regex → Regex → Prop where
  | empty : Recased .empty .empty
  | character {one other : Char} (same : CaseMode.insensitive.agree one other = true) :
      Recased (.character one) (.character other)
  | inSegment : Recased .inSegment .inSegment
  | sequence {first second one other : Regex} (start : Recased first one)
      (rest : Recased second other) : Recased (.sequence first second) (.sequence one other)
  | either {first second one other : Regex} (start : Recased first one)
      (rest : Recased second other) : Recased (.either first second) (.either one other)
  | optional {body other : Regex} (inner : Recased body other) :
      Recased (.optional body) (.optional other)
  | many {body other : Regex} (inner : Recased body other) : Recased (.many body) (.many other)
  | most {body other : Regex} (inner : Recased body other) : Recased (.most body) (.most other)
  | fewest {body other : Regex} (inner : Recased body other) :
      Recased (.fewest body) (.fewest other)
  | group {body other : Regex} (inner : Recased body other) : Recased (.group body) (.group other)
  | named {name : Text} {body other : Regex} (inner : Recased body other) :
      Recased (.named name body) (.named name other)
  | scope {body other : Regex} (inner : Recased body other) : Recased (.scope body) (.scope other)
  | foldCase {body other : Regex} (inner : Recased body other) :
      Recased (.foldCase body) (.foldCase other)
  | textStart : Recased .textStart .textStart
  | textEnd : Recased .textEnd .textEnd

theorem Recased.refl (regex : Regex) : Recased regex regex := by
  induction regex with
  | character literal => exact .character (CaseMode.agree_refl _ literal)
  | _ => constructor <;> assumption

/-- A recased expression, without regard to case, follows the expression read in any case mode. -/
theorem Recased.follows {one other : Regex} (recased : Recased one other) (mode : CaseMode) :
    Follows (Takes mode one) (Takes .insensitive other) := by
  induction recased generalizing mode with
  | empty =>
      intro _ _ _ _ _ _ _ recasedTaken _ none
      cases none
      exact List.forall₂_nil_left_iff.mp recasedTaken
  | character same =>
      apply follows_character
      intro first second recased accepted
      apply CaseMode.agree_trans (CaseMode.agree_symm same)
      exact CaseMode.agree_trans accepted recased
  | inSegment =>
      apply follows_character
      intro first second recased inside
      rwa [← is_segment_character_ignores_case first second recased]
  | sequence _ _ start rest => exact follows_both (start mode) (rest mode)
  | either _ _ start rest => exact follows_either (start mode) (rest mode)
  | optional _ ih =>
      apply follows_either (ih mode)
      intro _ _ _ _ _ _ _ recasedTaken _ none
      subst none
      exact List.forall₂_nil_left_iff.mp recasedTaken
  | many _ ih => exact follows_rounds (ih mode)
  | most _ ih => exact follows_both (ih mode) (follows_rounds (ih mode))
  | fewest _ ih => exact follows_both (ih mode) (follows_rounds (ih mode))
  | group _ ih => exact ih mode
  | named _ ih => exact ih mode
  | scope _ ih => exact ih mode
  | foldCase _ ih => exact ih .insensitive
  | textStart =>
      intro _ _ _ _ _ _ recasedBefore recasedTaken _ starts
      rcases starts with ⟨rfl, rfl⟩
      exact ⟨List.forall₂_nil_left_iff.mp recasedTaken,
        List.forall₂_nil_left_iff.mp recasedBefore⟩
  | textEnd =>
      intro _ _ _ _ _ _ _ recasedTaken recasedAfter ends
      rcases ends with ⟨rfl, rfl⟩
      exact ⟨List.forall₂_nil_left_iff.mp recasedTaken,
        List.forall₂_nil_left_iff.mp recasedAfter⟩

theorem recased_all_self (regexes : List Regex) : List.Forall₂ Recased regexes regexes :=
  List.forall₂_same.mpr fun regex _ => .refl regex

theorem recased_concat {parts others : List Regex} (recased : List.Forall₂ Recased parts others) :
    Recased (concat parts) (concat others) := by
  suffices behind : ∀ start other, Recased start other →
      Recased (parts.foldl .sequence start) (others.foldl .sequence other) from
    behind .empty .empty .empty
  induction recased with
  | nil => exact fun _ _ same => same
  | cons first _ ih => exact fun _ _ same => ih _ _ (.sequence same first)

theorem recased_literal {text other : Text} (recased : Text.Recased text other) :
    Recased (literal text) (literal other) := by
  apply recased_concat
  rw [List.forall₂_map_left_iff, List.forall₂_map_right_iff]
  exact recased.imp fun _ _ => .character

theorem recased_one_of {characters others : Text} (recased : Text.Recased characters others) :
    Recased (oneOf characters) (oneOf others) := by
  induction recased with
  | nil => exact .empty
  | cons same rest ih =>
      cases rest with
      | nil => exact .character same
      | cons next rest => exact .either (.character same) ih

theorem found_recased {one other : Regex} {mode : CaseMode} (recased : Recased one other)
    {text second : Text} (recasedText : Text.Recased text second)
    (found : (underCase mode one).found text = true) :
    (underCase .insensitive other).found second = true := by
  rw [found_iff_takes, takes_under_case] at found ⊢
  rcases found with ⟨before, taken, after, rfl, takes⟩
  rcases recasedText.of_append with ⟨otherBefore, rest, rfl, recasedBefore, recasedRest⟩
  rcases recasedRest.of_append with ⟨otherTaken, otherAfter, rfl, recasedTaken, recasedAfter⟩
  exact ⟨otherBefore, otherTaken, otherAfter, rfl,
    recased.follows mode recasedBefore recasedTaken recasedAfter takes⟩

end PathGlob.Regex
