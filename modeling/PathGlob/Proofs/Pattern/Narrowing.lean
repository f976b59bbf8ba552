import PathGlob.Proofs.Pattern.Prefix
import PathGlob.Proofs.Pattern.Segmentless

/-!
# Prefixing narrows

Components in front only ask for more. Whatever directory a branch is put below, wildcards and a
`**` at the seam included, its own components stay behind the others, and what the whole accepts
ends in segments that they accept. So a pattern below a directory matches no path that the pattern
does not match, not even one without segments.
-/
namespace PathGlob

set_option autoImplicit false

open PathGlob.Path

namespace Glob

variable {mode : CaseMode} {segments : List Text}

theorem suffix_of_accepts_cons {component : Component} {rest : List Component} (inner : rest ≠ [])
    (accepts : Accepts mode (component :: rest) segments) :
    ∃ suffix, suffix <:+ segments ∧ Accepts mode rest suffix := by
  cases component with
  | globstar => exact suffix_of_accepts_globstar inner accepts
  | literal text =>
      cases accepts with
      | literal _ more => exact ⟨_, List.suffix_cons _ _, more⟩
  | compound parts =>
      cases accepts with
      | compound _ more => exact ⟨_, List.suffix_cons _ _, more⟩

theorem suffix_of_accepts {components back : List Component} (nonempty : back ≠ [])
    (within : back <:+ components) (accepts : Accepts mode components segments) :
    ∃ suffix, suffix <:+ segments ∧ Accepts mode back suffix := by
  obtain ⟨front, rfl⟩ := within
  induction front generalizing segments with
  | nil => exact ⟨segments, List.suffix_refl segments, accepts⟩
  | cons component front ih =>
      obtain ⟨behind, behindWithin, more⟩ := suffix_of_accepts_cons (by simp [nonempty]) accepts
      obtain ⟨suffix, suffixWithin, accepted⟩ := ih more
      exact ⟨suffix, suffixWithin.trans behindWithin, accepted⟩

theorem Describes.accepts {glob : Glob} {path : Text} (describes : glob.Describes mode path) :
    ∃ suffix, suffix <:+ Path.segments path ∧ Accepts mode glob.components suffix := by
  unfold Describes at describes
  split at describes
  · exact ⟨_, List.suffix_refl _, describes.2⟩
  · exact describes

theorem TakesNothing.of_suffix {glob other : Glob} (nothing : glob.TakesNothing)
    (nonempty : other.components ≠ []) (within : other.components <:+ glob.components) :
    other.TakesNothing := by
  rcases nothing with same | same
  · rw [same, List.suffix_cons_iff, List.suffix_nil, or_iff_left nonempty] at within
    exact .inl within
  · rw [same, List.suffix_cons_iff, List.suffix_cons_iff, List.suffix_nil,
      or_iff_left nonempty] at within
    exact within.symm

end Glob

namespace Branch

variable {branch other : Branch} {path : Text}

/-- A relative branch matches what a branch of its mode matches that ends in its components. -/
theorem Parsed.matches_of_suffix (parsed : branch.Parsed) (otherParsed : other.Parsed)
    (relative : branch.rooted = false) (mode : other.mode = branch.mode)
    (within : branch.glob.components <:+ other.glob.components)
    (found : other.matchesPath (normalize path) = true) :
    branch.matchesPath (normalize path) = true := by
  have nonempty := parsed.proper.nonempty
  by_cases none : segments path = []
  · obtain ⟨nothing, -⟩ := (otherParsed.matches_nothing_iff none).mp found
    exact (parsed.matches_nothing_iff none).mpr
      ⟨nothing.of_suffix nonempty within, fun rooted =>
        absurd (relative.symm.trans rooted) Bool.false_ne_true⟩
  · rw [matches_normalized_iff parsed.proper none]
    have unrooted : branch.glob.rooted = false := relative
    rcases (matches_normalized_iff otherParsed.proper none).mp found with describes | ⟨lone, cut⟩
    · obtain ⟨whole, wholeWithin, accepts⟩ := describes.accepts
      obtain ⟨suffix, suffixWithin, accepted⟩ := Glob.suffix_of_accepts nonempty within accepts
      left
      rw [Glob.Describes, if_neg (by simp [unrooted]), ← mode]
      exact ⟨suffix, suffixWithin.trans wholeWithin, accepted⟩
    · rw [lone, List.suffix_cons_iff, List.suffix_nil, or_iff_left nonempty] at within
      have same : branch.glob = ⟨false, [.globstar]⟩ := by rw [← unrooted, ← within]
      exact .inr ⟨same, cut⟩

theorem Parsed.matches_of_under (parsed : branch.Parsed) {engine : Engine} {base : Text}
    (prefixed : branch.under engine (normalize base) = .ok other)
    (found : other.matchesPath (normalize path) = true) :
    branch.matchesPath (normalize path) = true := by
  cases rooted : branch.rooted with
  | true =>
      rw [under_of_rooted _ rooted] at prefixed
      cases prefixed
      exact found
  | false =>
      have otherParsed := under_parsed parsed prefixed
      obtain ⟨⟨front, -, -, rfl⟩, -⟩ := (parsed.under_eq_ok_iff rooted).mp prefixed
      exact parsed.matches_of_suffix otherParsed rooted rfl
        (Component.suffix_merge_append parsed.canonical.apart front) found

end Branch

namespace Pattern

/--
Prefixing narrows: whatever a pattern below a directory matches, the pattern matches, also where the
directory has wildcards in it.
-/
theorem under_narrows {engine : Engine} {pattern result : Pattern} (built : pattern.Built)
    {base : Text} (prefixed : pattern.under engine base = .ok result) (path : Text)
    (found : result.matchesPath path = true) :
    pattern.matchesPath path = true := by
  have proper := built.proper
  obtain ⟨branches, mapped, rfl⟩ := (proper.under_eq_ok_iff base).mp prefixed
  rw [of_branches_matches (Branch.parsed_of_under proper.parsed mapped), List.any_eq_true] at found
  obtain ⟨branch, member, found⟩ := found
  obtain ⟨origin, among, below⟩ := of_mem_map_m_ok mapped branch member
  rw [matchesPath, List.any_eq_true]
  exact ⟨origin, among, (proper.parsed origin among).matches_of_under below found⟩

/-- The pattern `**/b;/r` below `a*/**`, for the path `/ax/y/b`. -/
theorem under_narrows_wildcard :
    ∃ pattern result,
      compile .lenient ['*', '*', '/', 'b', ';', '/', 'r'] .sensitive = .ok pattern ∧
      pattern.under .lenient ['a', '*', '/', '*', '*'] = .ok result ∧
      result.matchesPath ['/', 'a', 'x', '/', 'y', '/', 'b'] = true ∧
      pattern.matchesPath ['/', 'a', 'x', '/', 'y', '/', 'b'] = true := by
  have compiled : compile .lenient ['*', '*', '/', 'b', ';', '/', 'r'] .sensitive =
      .ok ⟨[⟨⟨false, [.globstar, .literal ['b']]⟩, .sensitive⟩,
        ⟨⟨true, [.literal ['r']]⟩, .sensitive⟩]⟩ := by
    decide +kernel
  have prefixed : Pattern.under .lenient ['a', '*', '/', '*', '*']
      ⟨[⟨⟨false, [.globstar, .literal ['b']]⟩, .sensitive⟩,
        ⟨⟨true, [.literal ['r']]⟩, .sensitive⟩]⟩ =
      .ok ⟨[⟨⟨false, [.compound [.literal ['a'], .star], .globstar, .literal ['b']]⟩, .sensitive⟩,
        ⟨⟨true, [.literal ['r']]⟩, .sensitive⟩]⟩ := by decide +kernel
  have found : Pattern.matchesPath
      ⟨[⟨⟨false, [.compound [.literal ['a'], .star], .globstar, .literal ['b']]⟩, .sensitive⟩,
        ⟨⟨true, [.literal ['r']]⟩, .sensitive⟩]⟩ ['/', 'a', 'x', '/', 'y', '/', 'b'] =
          true := by decide +kernel
  exact ⟨_, _, compiled, prefixed, found, under_narrows (.compiled compiled) prefixed _ found⟩

end Pattern

end PathGlob
