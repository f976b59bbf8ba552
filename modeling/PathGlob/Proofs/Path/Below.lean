import PathGlob.Proofs.Path.Names

/-!
# Paths below a directory

A path is below a directory if it is the directory with a separator and whole segments behind it.
This is said of the texts, so it also holds for directories that are not normalized, and a segment
may be any text without a separator, `..` among them. Joining a segment goes down and never up.
-/
namespace PathGlob.Path

set_option autoImplicit false

structure IsSegment (name : Text) : Prop where
  nonempty : name ≠ []
  whole : '/' ∉ name

/-- A directory without the separator that it may end in, as the root does. -/
def stem (directory : Text) : Text :=
  if directory.getLast? = some '/' then directory.dropLast else directory

/-- Whether a path is a directory followed by a separator and one whole segment or more. -/
def Below (directory path : Text) : Prop :=
  ∃ names, names ≠ [] ∧ (∀ name ∈ names, IsSegment name) ∧ path = stem directory ++ slashed names

def Within (directory path : Text) : Prop := path = directory ∨ Below directory path

theorem IsName.is_segment {name : Text} (named : IsName name) : IsSegment name :=
  ⟨named.nonempty, named.slash_not_mem⟩

theorem join_of_segment {directory name : Text} (nonempty : directory ≠ [])
    (segment : IsSegment name) :
    join directory name = stem directory ++ '/' :: name := by
  rw [join, drop_while_slash_of_not_mem segment.whole, List.isEmpty_eq_false_iff.mpr nonempty,
    if_neg Bool.false_ne_true, stem]
  by_cases ends : directory.getLast? = some '/'
  · rw [if_pos (beq_iff_eq.mpr ends), if_pos ends]
    rcases List.getLast?_eq_some_iff.mp ends with ⟨before, rfl⟩
    simp
  · rw [if_neg (by simpa using ends), if_neg ends]

theorem stem_slashed {names : List Text} (nonempty : names ≠ [])
    (segments : ∀ name ∈ names, IsSegment name) (before : Text) :
    stem (before ++ slashed names) = before ++ slashed names := by
  apply if_neg
  intro ends
  rcases (List.eq_nil_or_concat' names).resolve_left nonempty with ⟨init, last, rfl⟩
  have segment := segments last (by simp)
  rcases (List.eq_nil_or_concat' last).resolve_left segment.nonempty with ⟨start, final, rfl⟩
  have text : before ++ slashed (init ++ [start ++ [final]]) =
      (before ++ slashed init ++ '/' :: start) ++ [final] := by simp [slashed_append]
  rw [text, List.getLast?_concat, Option.some.injEq] at ends
  exact segment.whole (by simp [ends])

theorem Within.join {directory path name : Text} (nonempty : directory ≠ [])
    (within : Within directory path) (segment : IsSegment name) :
    Below directory (join path name) := by
  rcases within with rfl | ⟨names, some, segments, rfl⟩
  · exact ⟨[name], List.cons_ne_nil _ _, by simpa using segment,
      by simpa using join_of_segment nonempty segment⟩
  · have filled : stem directory ++ slashed names ≠ [] := by
      rcases List.exists_cons_of_ne_nil some with ⟨first, rest, rfl⟩
      simp
    refine ⟨names ++ [name], by simp, ?_, ?_⟩
    · rw [List.forall_mem_append]
      exact ⟨segments, by simpa using segment⟩
    · rw [join_of_segment filled segment, stem_slashed some segments, slashed_append]
      simp

end PathGlob.Path
