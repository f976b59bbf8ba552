import PathGlob.Proofs.Path.Lineage

/-!
# Resolved paths

Resolving a relative path puts its names behind those of the directory. That gives a normalized path
unless the path has no name at all: then what comes out is the directory with a separator behind it.
Directories that were resolved themselves are of these two forms, and so is what is resolved against
them. Above either there are only normalized paths.
-/
namespace PathGlob.Path

set_option autoImplicit false

inductive IsResolved : Text → Prop
  | bare {names : List Text} (named : ∀ name ∈ names, IsName name) : IsResolved (absolute names)
  | trailing {names : List Text} (named : ∀ name ∈ names, IsName name) (below : names ≠ []) :
      IsResolved (absolute names ++ ['/'])

theorem segments_trailing {names : List Text} (named : ∀ name ∈ names, IsName name) :
    segments (absolute names ++ ['/']) = names := by
  rw [segments_append, segments_absolute named]
  exact List.append_nil names

theorem not_is_place_trailing {names : List Text} (named : ∀ name ∈ names, IsName name) :
    ¬ IsPlace (absolute names ++ ['/']) := by
  intro place
  have normal := place.normalize_eq
  rw [normalize_of_rooted rfl, segments_trailing named] at normal
  simpa using congrArg List.length normal

theorem slashed_append_absolute (names : List Text) {others : List Text} (nonempty : others ≠ []) :
    slashed names ++ absolute others = absolute (names ++ others) := by
  rw [absolute_eq_slashed nonempty, absolute_eq_slashed (by simp [nonempty]), slashed_append]

theorem slashed_append_root {names : List Text} (below : names ≠ []) :
    slashed names ++ absolute [] = absolute names ++ ['/'] := by
  rw [absolute_eq_slashed below]
  rfl

theorem parent_trailing (names : List Text) :
    parent? (absolute names ++ ['/']) = some (absolute names) := by
  have backwards :
      (absolute names ++ ['/']).reverse.dropWhile (· != '/') = '/' :: (absolute names).reverse := by
    rw [List.reverse_append]
    rfl
  obtain ⟨last, before, reversed⟩ :=
    List.exists_cons_of_ne_nil (by simp [absolute] : (absolute names).reverse ≠ [])
  rw [parent?, backwards, reversed]
  apply congrArg some
  rw [← reversed, List.reverse_reverse]

theorem is_resolved_root : IsResolved ['/'] := .bare (List.forall_mem_nil IsName)

theorem IsPlace.is_resolved {path : Text} (place : IsPlace path) : IsResolved path := by
  obtain ⟨names, named, rfl⟩ := place
  exact .bare named

namespace IsResolved

variable {base path : Text}

theorem starts_at_root (resolved : IsResolved path) : startsAtRoot path = true := by
  cases resolved <;> rfl

theorem segments_eq_nil_iff (resolved : IsResolved path) : segments path = [] ↔ path = ['/'] := by
  constructor
  · intro nameless
    cases resolved with
    | bare named =>
        rw [segments_absolute named] at nameless
        rw [nameless]
        rfl
    | trailing named below =>
        rw [segments_trailing named] at nameless
        exact absurd nameless below
  · rintro rfl
    rfl

theorem join (resolved : IsResolved base) {text : Text} (relative : isRooted text = false) :
    join base text = slashed (segments base) ++ '/' :: text := by
  have whole := drop_while_slash_of_relative relative
  cases resolved with
  | bare named => rw [join_absolute_text named whole, segments_absolute named]
  | trailing named below =>
      rw [Path.join, whole, segments_trailing named, absolute_eq_slashed below]
      simp

theorem resolve_relative (resolved : IsResolved base) (relative : startsAtRoot path = false) :
    resolve base path = slashed (segments base) ++ absolute (segments path) := by
  have unrooted := is_rooted_normalize path
  rw [relative, normalize_of_relative relative] at unrooted
  rw [Path.resolve, normalize_of_relative relative, unrooted, if_neg Bool.false_ne_true,
    resolved.join unrooted]
  rfl

/-- The names of a path behind the text of the directory come behind those of the directory. -/
theorem resolve_behind (resolved : IsResolved base) (path : Text) :
    Path.resolve base (base ++ '/' :: path) = absolute (segments base ++ segments path) := by
  have starts : startsAtRoot (base ++ '/' :: path) = true := by
    cases resolved <;> rfl
  rw [resolve_of_rooted base starts, normalize_of_rooted starts, segments_append]

theorem is_place_resolve (resolved : IsResolved base) (nonempty : normalize path ≠ []) :
    IsPlace (Path.resolve base path) := by
  cases starts : startsAtRoot path with
  | true =>
      rw [resolve_of_rooted base starts]
      exact is_place_normalize starts
  | false =>
      rw [Ne, normalize_eq_nil_iff starts] at nonempty
      rw [resolved.resolve_relative starts, slashed_append_absolute _ nonempty]
      refine ⟨_, List.forall_mem_append.mpr ⟨?_, ?_⟩, rfl⟩
      · exact fun _ => is_name_of_mem_segments
      · exact fun _ => is_name_of_mem_segments

theorem resolve (resolved : IsResolved base) (path : Text) : IsResolved (resolve base path) := by
  by_cases empty : normalize path = []
  · have relative : startsAtRoot path = false := by
      rw [← is_rooted_normalize, empty]
      rfl
    rw [resolved.resolve_relative relative, (normalize_eq_nil_iff relative).mp empty]
    by_cases top : segments base = []
    · rw [top]
      exact is_resolved_root
    · rw [slashed_append_root top]
      exact .trailing (fun _ => is_name_of_mem_segments) top
  · exact (resolved.is_place_resolve empty).is_resolved

theorem exists_parent (resolved : IsResolved path) (below : path ≠ ['/']) :
    ∃ parent, parent? path = some parent ∧ IsPlace parent := by
  cases resolved with
  | @bare names named =>
      rcases List.eq_nil_or_concat' names with rfl | ⟨front, last, rfl⟩
      · exact absurd rfl below
      · rw [List.forall_mem_append] at named
        exact ⟨_, parent_absolute front (named.2 last (by simp)), front, named.1, rfl⟩
  | trailing named => exact ⟨_, parent_trailing _, _, named, rfl⟩

theorem is_place_parent (resolved : IsResolved path) {parent : Text}
    (above : parent? path = some parent) :
    IsPlace parent := by
  by_cases top : path = ['/']
  · subst top
    cases above
  · rcases resolved.exists_parent top with ⟨same, found, place⟩
    rw [above] at found
    cases found
    exact place

theorem of_mem_lineage (resolved : IsResolved path) {other : Text} (among : other ∈ lineage path) :
    IsResolved other := by
  induction path using lineage.induct with
  | case1 path top =>
      rw [lineage_of_none top] at among
      rwa [List.mem_singleton.mp among]
  | case2 path parent above ih =>
      rw [lineage_of_some above] at among
      rcases List.mem_cons.mp among with rfl | later
      · exact resolved
      · exact ih (resolved.is_place_parent above).is_resolved later

end IsResolved

end PathGlob.Path
