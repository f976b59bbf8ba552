import PathGlob.CaseFold.Table

/-!
# Simple case folding

Matching without regard to case compares characters after simple case folding, which maps one
character to one character: `K`, `k` and the Kelvin sign agree, and so do `ß` and `ẞ`, but `ß` and
`ss` do not. The separators, the full stop, the colon and the characters with a meaning in patterns
are related to nothing but themselves.
-/
namespace PathGlob.CaseFold

set_option autoImplicit false

namespace Progression

def holds (progression : Progression) (code : Nat) : Bool :=
  progression.first ≤ code && code ≤ progression.last &&
    (code - progression.first) % progression.step == 0

def send (progression : Progression) (code : Nat) : Nat :=
  progression.image + (code - progression.first)

end Progression

def foldCode (code : Nat) : Nat :=
  match progressions.find? fun progression => progression.holds code with
  | some progression => progression.send code
  | none => code

def fold (character : Char) : Char := Char.ofNat (foldCode character.toNat)

/-- Characters of paths and patterns that folding leaves alone. -/
def unfolded : List Char := ['/', '\\', '.', ':', '[', ']', '{', '}', '*', ';']

def Progression.avoids (progression : Progression) (code : Nat) : Bool :=
  (code < progression.first || progression.last < code) &&
    (code < progression.image ||
      progression.image + (progression.last - progression.first) < code)

private theorem progressions_avoid_unfolded :
    (progressions.all fun progression =>
      unfolded.all fun character => progression.avoids character.toNat) = true := by
  decide

theorem foldCode_eq_unfolded_iff {character : Char} (member : character ∈ unfolded) (code : Nat) :
    foldCode code = character.toNat ↔ code = character.toNat := by
  unfold foldCode
  split
  · rename_i progression found
    have avoids := List.all_eq_true.mp
      (List.all_eq_true.mp progressions_avoid_unfolded progression
        (List.mem_of_find?_eq_some found))
      character member
    have holds := List.find?_some found
    simp only [Progression.avoids, Bool.and_eq_true, Bool.or_eq_true, decide_eq_true_eq] at avoids
    simp only [Progression.holds, Bool.and_eq_true, decide_eq_true_eq] at holds
    simp only [Progression.send]
    omega
  · exact Iff.rfl

private theorem toNat_unfolded_pos {character : Char} (member : character ∈ unfolded) :
    0 < character.toNat := by
  have positive : (unfolded.all fun other => 0 < other.toNat) = true := by decide
  simpa using List.all_eq_true.mp positive character member

/-- Folding relates these characters to nothing but themselves. -/
theorem fold_eq_unfolded_iff {character : Char} (member : character ∈ unfolded) (other : Char) :
    fold other = character ↔ other = character := by
  have positive := toNat_unfolded_pos member
  have codes := foldCode_eq_unfolded_iff member other.toNat
  constructor
  · intro same
    apply Char.toNat_inj.mp
    apply codes.mp
    by_cases valid : (foldCode other.toNat).isValidChar
    · rw [← same, fold, Char.ofNat, dif_pos valid]
      rfl
    · rw [fold, Char.ofNat, dif_neg valid] at same
      rw [← same] at positive
      exact absurd positive (by decide)
  · intro equal
    subst equal
    rw [fold, codes.mpr rfl, Char.ofNat_toNat]

end PathGlob.CaseFold

namespace PathGlob

/-- Whether matching distinguishes characters that differ in case only. -/
inductive CaseMode where
  | sensitive
  | insensitive
  deriving DecidableEq, Repr

def CaseMode.agree : CaseMode → Char → Char → Bool
  | .sensitive, left, right => left == right
  | .insensitive, left, right => left == right || CaseFold.fold left == CaseFold.fold right

theorem CaseMode.agree_refl (mode : CaseMode) (character : Char) :
    mode.agree character character = true := by
  cases mode <;> simp [CaseMode.agree]

end PathGlob
