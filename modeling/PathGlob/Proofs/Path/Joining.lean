import PathGlob.Proofs.Path.Names

/-!
# Segments of joined paths

Normalizing and joining are spellings only: a normalized path has the segments of the path, a joined
one those of the directory and then those of the name, and both are rooted as what they start with.
This holds for every text, normalized or not, so nothing has to be known of the two operands.
-/
namespace PathGlob.Path

set_option autoImplicit false

theorem starts_at_root_of_whole {name : Text}
    (whole : ∀ character ∈ name, isSeparator character = false) :
    startsAtRoot name = false := by
  cases name with
  | nil => rfl
  | cons first rest => exact whole first List.mem_cons_self

theorem starts_at_root_append {left : Text} (nonempty : left ≠ []) (right : Text) :
    startsAtRoot (left ++ right) = startsAtRoot left := by
  obtain ⟨first, rest, rfl⟩ := List.exists_cons_of_ne_nil nonempty
  rfl

theorem starts_at_root_join_with {names : List Text} (named : ∀ name ∈ names, IsName name) :
    startsAtRoot (Text.joinWith '/' names) = false := by
  cases names with
  | nil => rfl
  | cons name names =>
      have first := named name List.mem_cons_self
      rw [join_with_cons, starts_at_root_append first.nonempty]
      exact starts_at_root_of_whole first.whole

theorem starts_at_root_normalize (path : Text) :
    startsAtRoot (normalize path) = startsAtRoot path := by
  cases root : startsAtRoot path with
  | true =>
      rw [normalize_of_rooted root]
      rfl
  | false =>
      rw [normalize_of_relative root]
      exact starts_at_root_join_with fun _ => is_name_of_mem_segments

theorem segments_normalize (path : Text) : segments (normalize path) = segments path := by
  have named : ∀ name ∈ segments path, IsName name := fun _ => is_name_of_mem_segments
  cases root : startsAtRoot path with
  | true => rw [normalize_of_rooted root, segments_absolute named]
  | false => rw [normalize_of_relative root, segments_join_with named]

theorem normalize_eq_nil_or_root_iff (path : Text) :
    normalize path = [] ∨ normalize path = ['/'] ↔ segments path = [] := by
  constructor
  · intro bare
    rw [← segments_normalize]
    rcases bare with same | same <;> rw [same] <;> rfl
  · intro none
    rw [normalize, none]
    cases startsAtRoot path with
    | true => exact .inr rfl
    | false => exact .inl rfl

theorem segments_cons_slash (path : Text) : segments ('/' :: path) = segments path :=
  segments_append [] path

theorem segments_drop_slashes (path : Text) :
    segments (path.dropWhile (· == '/')) = segments path := by
  induction path with
  | nil => rfl
  | cons first rest ih =>
      by_cases slash : first = '/'
      · subst slash
        rw [segments_cons_slash, ← ih]
        rfl
      · rw [List.dropWhile_cons_of_neg (by simpa using slash)]

theorem segments_join (directory name : Text) :
    segments (join directory name) = segments directory ++ segments name := by
  rw [join, ← segments_drop_slashes name]
  split
  · rename_i empty
    rw [List.isEmpty_iff.mp empty]
    rfl
  · split
    · rename_i ends
      obtain ⟨before, rfl⟩ := List.getLast?_eq_some_iff.mp (beq_iff_eq.mp ends)
      have trailing : segments (before ++ ['/']) = segments before :=
        (segments_append before []).trans (List.append_nil _)
      rw [List.append_assoc, List.singleton_append, segments_append, trailing]
    · exact segments_append directory _

theorem starts_at_root_join {directory : Text} (nonempty : directory ≠ []) (name : Text) :
    startsAtRoot (join directory name) = startsAtRoot directory := by
  rw [join, List.isEmpty_eq_false_iff.mpr nonempty, if_neg Bool.false_ne_true]
  split <;> exact starts_at_root_append nonempty _

theorem starts_at_root_join_normalize (directory : Text) {name : Text}
    (relative : startsAtRoot name = false) :
    startsAtRoot (join (normalize directory) name) = startsAtRoot directory := by
  rw [← starts_at_root_normalize directory]
  by_cases empty : normalize directory = []
  · rw [empty, join, drop_while_slash_of_relative (is_rooted_of_starts_not relative)]
    exact relative
  · exact starts_at_root_join empty name

end PathGlob.Path
