import PathGlob.Proofs.Path.Joining
import PathGlob.Proofs.Pattern.Combination
import PathGlob.Proofs.Pattern.Matching

/-!
# What absorption keeps and loses

The pattern `**/*.*` stands in for every combination that it is part of, as the pattern of every
entry. Its wildcards take no colon, though, and the last segment is left to them: it matches exactly
the paths with a last segment that has no colon. So a combination with it keeps the matches of the
other patterns on those paths and loses all others, such as `/a:b` from the pattern `a:b`.
-/
namespace PathGlob

set_option autoImplicit false

def Path.EndsPlainly (path : Text) : Prop :=
  ∃ before name, segments path = before ++ [name] ∧ ':' ∉ name

namespace Component

theorem describe_star_and_suffix_iff (mode : CaseMode) {name : Text} (nonempty : name ≠ []) :
    DescribeSegment mode true [.star, .literal ['.'], .star] name ↔ ':' ∉ name := by
  have dotted : Part.dotStar? [.star, .literal ['.'], .star] = some ([.star], []) := by decide
  have bare : ∀ taken, Part.DescribeAll mode ([.star] ++ [.literal []]) taken ↔
      taken ≠ [] ∧ ':' ∉ taken := by
    intro taken
    rw [Part.describe_all_append_iff]
    simp [Part.DescribeAll, Part.Describes, CaseMode.Agrees]
  rw [describe_segment_dotted_iff mode dotted]
  simp only [bare]
  constructor
  · intro described
    rcases described with ⟨stem, suffix, rfl, ⟨-, free⟩, rfl | ⟨tail, rfl, tailFree⟩⟩
    · simpa using free
    · simp [free, tailFree]
  · intro free
    exact ⟨name, [], (List.append_nil name).symm, ⟨nonempty, free⟩, .inl rfl⟩

end Component

namespace Glob

open PathGlob.Path

theorem accepts_any_suffix_iff (mode : CaseMode) {segments : List Text}
    (named : ∀ name ∈ segments, IsName name) :
    (∃ suffix, suffix <:+ segments ∧
        Accepts mode [.globstar, .compound [.star, .literal ['.'], .star]] suffix) ↔
      ∃ before name, segments = before ++ [name] ∧ ':' ∉ name := by
  constructor
  · intro accepted
    rcases accepted with ⟨suffix, within, accepts⟩
    rcases suffix_of_accepts_globstar (by simp) accepts with ⟨last, inside, acceptsLast⟩
    rcases inside.trans within with ⟨before, rfl⟩
    cases acceptsLast with
    | @compound _ name _ _ described more =>
        rw [accepts_nothing_iff] at more
        subst more
        have nonempty := (named name (by simp)).nonempty
        exact ⟨before, name, rfl,
          (Component.describe_star_and_suffix_iff mode nonempty).mp described⟩
  · intro plain
    rcases plain with ⟨before, name, rfl, free⟩
    have nonempty := (named name (by simp)).nonempty
    have described := (Component.describe_star_and_suffix_iff mode nonempty).mpr free
    exact ⟨[name], List.suffix_append before [name],
      .onward (by simp) (.compound described .nothing)⟩

end Glob

namespace Pattern

open PathGlob.Path

theorem compile_anything :
    compile .lenient anythingText .sensitive = .ok anything := by decide +kernel

theorem anything_proper : anything.Proper := compile_proper compile_anything

theorem Proper.eq_anything {pattern : Pattern} (proper : pattern.Proper)
    (absorbs : pattern.absorbing = true) : pattern = anything := by
  apply proper.eq_of_equal anything_proper
  rw [equal_iff, (absorbing_iff pattern).mp absorbs]
  decide +kernel

/--
The pattern `**/*.*` leaves out the paths without segments and those with a colon in the last.
-/
theorem anything_matches_iff (path : Text) :
    anything.matchesPath path = true ↔ EndsPlainly path := by
  by_cases some : segments path = []
  · have unmatched : anything.matchesPath path = false := by
      rw [matchesPath]
      rcases (normalize_eq_nil_or_root_iff path).mpr some with same | same
      · rw [same]
        decide +kernel
      · rw [same]
        decide +kernel
    rw [unmatched, EndsPlainly, some]
    simp
  · have named : ∀ name ∈ segments path, IsName name := fun name => is_name_of_mem_segments
    have uncut :
        ¬Glob.CutsInto ⟨false, [.globstar, .compound [.star, .literal ['.'], .star]]⟩ path := by
      intro cut
      cases cut.1
    rw [matches_iff anything_proper some, EndsPlainly,
      ← Glob.accepts_any_suffix_iff .sensitive named]
    simp only [anything, List.mem_singleton, exists_eq_left, or_iff_left uncut]
    rfl

end Pattern

namespace Handle

def SomeMatches (entries : List (Option Handle)) (path : Text) : Prop :=
  ∃ handle, some handle ∈ entries ∧ handle.pattern.matchesPath path = true

/--
The absorbing pattern matches a path if that has a last segment without a colon. Where it takes the
place of a combination, the matches of the other patterns are kept on these paths and lost on all
others.
-/
theorem absorption_keeps_plain_endings (path : Text) :
    (Pattern.anything.matchesPath path = true ↔ Path.EndsPlainly path) ∧
    ∀ entries, (∀ handle, some handle ∈ entries → handle.pattern.Built) →
      (∃ handle, some handle ∈ entries ∧ handle.pattern.absorbing = true) →
        ∀ supply, ∃ first, combine entries supply = .ok (first, supply) ∧
          (first.pattern.matchesPath path = true ↔
            SomeMatches entries path ∧ Path.EndsPlainly path) := by
  refine ⟨Pattern.anything_matches_iff path, ?_⟩
  intro entries built absorbing supply
  rcases absorbing with ⟨handle, member, absorbs⟩
  have found : (entries.reduceOption.find? (·.pattern.absorbing)).isSome = true :=
    List.find?_isSome.mpr ⟨handle, List.reduceOption_mem_iff.mpr member, absorbs⟩
  rcases Option.isSome_iff_exists.mp found with ⟨first, isFirst⟩
  have present := List.reduceOption_mem_iff.mp (List.mem_of_find?_eq_some isFirst)
  have firstAbsorbs := List.find?_some isFirst
  have same := (built first present).proper.eq_anything firstAbsorbs
  refine ⟨first, combine_of_absorbing isFirst supply, ?_⟩
  rw [same, Pattern.anything_matches_iff]
  constructor
  · intro plain
    refine ⟨⟨first, present, ?_⟩, plain⟩
    rw [same, Pattern.anything_matches_iff]
    exact plain
  · exact And.right

/-- The pattern `a:b;c` in front of the absorbing one, on the path `/a:b/c`. -/
theorem absorption_keeps_plain_endings_behind_colon :
    ∃ pattern, Pattern.compile .lenient ['a', ':', 'b', ';', 'c'] .sensitive = .ok pattern ∧
      ∃ first, combine [some ⟨1, pattern⟩, none, some anything] ⟨2⟩ = .ok (first, ⟨2⟩) ∧
        (first.pattern.matchesPath ['/', 'a', ':', 'b', '/', 'c'] = true ↔
          SomeMatches [some ⟨1, pattern⟩, none, some anything] ['/', 'a', ':', 'b', '/', 'c'] ∧
            Path.EndsPlainly ['/', 'a', ':', 'b', '/', 'c']) := by
  have compiled : Pattern.compile .lenient ['a', ':', 'b', ';', 'c'] .sensitive =
      .ok ⟨[⟨⟨false, [.literal ['a', ':', 'b']]⟩, .sensitive⟩,
        ⟨⟨false, [.literal ['c']]⟩, .sensitive⟩]⟩ := by decide +kernel
  have built : ∀ handle : Handle,
      some handle ∈ [some ⟨1, ⟨[⟨⟨false, [.literal ['a', ':', 'b']]⟩, .sensitive⟩,
        ⟨⟨false, [.literal ['c']]⟩, .sensitive⟩]⟩⟩, none, some anything] →
          handle.pattern.Built := by
    intro handle member
    simp only [List.mem_cons, Option.some.injEq, reduceCtorEq, List.not_mem_nil, or_false, false_or]
      at member
    rcases member with rfl | rfl
    · exact .compiled compiled
    · exact .compiled Pattern.compile_anything
  have absorbed := (absorption_keeps_plain_endings ['/', 'a', ':', 'b', '/', 'c']).2 _ built
    ⟨anything, by simp, by decide +kernel⟩ ⟨2⟩
  exact ⟨_, compiled, absorbed⟩

/-- The pattern `a:b` matches `/a:b`, which its combination with the absorbing pattern does not. -/
theorem absorption_loses_colon :
    ∃ pattern, Pattern.compile .lenient ['a', ':', 'b'] .sensitive = .ok pattern ∧
      pattern.matchesPath ['/', 'a', ':', 'b'] = true ∧
      Pattern.anything.matchesPath ['/', 'a', ':', 'b'] = false ∧
      combine [some ⟨1, pattern⟩, some anything] ⟨2⟩ = .ok (anything, ⟨2⟩) := by
  have compiled : Pattern.compile .lenient ['a', ':', 'b'] .sensitive =
      .ok ⟨[⟨⟨false, [.literal ['a', ':', 'b']]⟩, .sensitive⟩]⟩ := by decide +kernel
  exact ⟨_, compiled, by decide +kernel, by decide +kernel, rfl⟩

end Handle

end PathGlob
