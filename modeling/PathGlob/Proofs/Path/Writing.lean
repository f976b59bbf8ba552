import PathGlob.Proofs.Path.Joining

/-!
# Writing normalized paths

A normalized path can be written from left to right, one piece after another, where only the text
written so far decides whether a separator is due. Each segment is then joined onto what is there,
so joining two paths is going on with the second where the first was left. What normalizing keeps of
a path is how it starts and which segments it has. Nothing else about its spelling matters.
-/
namespace PathGlob.Path

set_option autoImplicit false

/-- A piece of a path behind the text written so far. Pieces that name nothing are passed over. -/
def writePiece (written piece : Text) : Text :=
  if piece = [] ∨ piece = ['.'] then written
  else if written = [] ∨ written.getLast? = some '/' then written ++ piece
  else written ++ '/' :: piece

def withSlashes (path : Text) : Text :=
  path.map fun character => if character = '\\' then '/' else character

section Joining

variable {name : Text} {names : List Text}

theorem join_name (named : IsName name) (directory : Text) :
    join directory name =
      if directory = [] ∨ directory.getLast? = some '/' then directory ++ name
      else directory ++ '/' :: name := by
  rw [join, drop_while_slash_of_not_mem named.slash_not_mem]
  by_cases empty : directory = []
  · rw [if_pos (List.isEmpty_iff.mpr empty), if_pos (.inl empty), empty, List.nil_append]
  · rw [if_neg (mt List.isEmpty_iff.mp empty)]
    simp only [beq_iff_eq, empty, false_or]

theorem write_piece_eq_join (named : IsName name) (written : Text) :
    writePiece written name = join written name := by
  rw [writePiece, if_neg (not_or.mpr ⟨named.nonempty, named.notDot⟩), join_name named]

theorem join_name_ends (named : IsName name) (directory : Text) :
    join directory name ≠ [] ∧ (join directory name).getLast? ≠ some '/' := by
  have ends := get_last_ne_slash named.nonempty named.slash_not_mem
  rw [join_name named]
  split
  · exact ⟨List.append_ne_nil_of_right_ne_nil directory named.nonempty, ends directory⟩
  · rw [List.append_cons]
    exact ⟨List.append_ne_nil_of_right_ne_nil _ named.nonempty, ends _⟩

/-- Behind a text that ends inside a segment, each further name comes with its separator. -/
theorem foldl_join_behind (named : ∀ name ∈ names, IsName name) {written : Text}
    (nonempty : written ≠ []) (inside : written.getLast? ≠ some '/') :
    names.foldl join written = written ++ slashed names := by
  induction names generalizing written with
  | nil => exact (List.append_nil written).symm
  | cons name names ih =>
      obtain ⟨first, others⟩ := List.forall_mem_cons.mp named
      obtain ⟨filled, ends⟩ := join_name_ends first written
      have here : join written name = written ++ '/' :: name := by
        rw [join_name first, if_neg (not_or.mpr ⟨nonempty, inside⟩)]
      rw [List.foldl_cons, ih others filled ends, here, slashed_cons, List.append_assoc,
        List.cons_append]

theorem join_join_with (named : ∀ name ∈ names, IsName name) (nonempty : names ≠ [])
    (directory : Text) :
    join directory (Text.joinWith '/' names) = names.foldl join directory := by
  obtain ⟨name, names, rfl⟩ := List.exists_cons_of_ne_nil nonempty
  obtain ⟨first, others⟩ := List.forall_mem_cons.mp named
  obtain ⟨filled, ends⟩ := join_name_ends first directory
  have relative := drop_while_slash_of_relative (is_rooted_join_with named)
  rw [List.foldl_cons, foldl_join_behind others filled ends, join, relative, join_with_cons, join,
    drop_while_slash_of_not_mem first.slash_not_mem]
  split
  · rfl
  · split <;> simp only [List.append_assoc, List.cons_append]

theorem join_normalize (directory path : Text) :
    join directory (normalize path) = join directory (Text.joinWith '/' (segments path)) := by
  cases root : startsAtRoot path with
  | true =>
      rw [normalize_of_rooted root]
      rfl
  | false => rw [normalize_of_relative root]

end Joining

/-- A normalized path is its start with the segments joined onto it. -/
theorem normalize_eq_foldl_join (path : Text) :
    normalize path = (segments path).foldl join (if startsAtRoot path then ['/'] else []) := by
  have named : ∀ name ∈ segments path, IsName name := fun _ => is_name_of_mem_segments
  have relative := drop_while_slash_of_relative (is_rooted_join_with named)
  by_cases none : segments path = []
  · rw [normalize, none]
    exact List.append_nil _
  · rw [← join_join_with named none, join, relative, normalize]
    split <;> rfl

theorem join_normalized {directory : Text} (nonempty : directory ≠ []) {path : Text}
    (filled : segments path ≠ []) :
    join (normalize directory) (normalize path) = normalize (directory ++ '/' :: path) := by
  have named : ∀ name ∈ segments path, IsName name := fun _ => is_name_of_mem_segments
  rw [normalize_eq_foldl_join (directory ++ '/' :: path), segments_append,
    starts_at_root_append nonempty, List.foldl_append, ← normalize_eq_foldl_join, join_normalize,
    join_join_with named filled]

theorem foldl_write_piece (pieces : List Text) (start : Text) :
    pieces.foldl writePiece start =
      (pieces.filter fun piece => piece ≠ [] && piece ≠ ['.']).foldl writePiece start := by
  induction pieces generalizing start with
  | nil => rfl
  | cons piece pieces ih =>
      have busy : (piece ≠ [] && piece ≠ ['.']) = true ↔ ¬(piece = [] ∨ piece = ['.']) := by simp
      rw [List.foldl_cons, ih, List.filter_cons]
      split
      · rfl
      · rename_i idle
        rw [writePiece, if_pos (not_not.mp (mt busy.mpr idle))]

theorem foldl_write_piece_eq_normalize (path : Text) :
    (path.split isSeparator).foldl writePiece (if startsAtRoot path then ['/'] else []) =
      normalize path := by
  rw [foldl_write_piece, normalize_eq_foldl_join]
  apply List.foldl_ext
  intro written name among
  exact write_piece_eq_join (is_name_of_mem_segments among) written

/-- Two spellings are normalized alike if they start alike and have the same segments. -/
theorem normalize_congr {path other : Text} (start : startsAtRoot path = startsAtRoot other)
    (same : segments path = segments other) : normalize path = normalize other := by
  rw [normalize, normalize, start, same]

/-- What is behind a separator can be respelled, and so can the separator. -/
theorem normalize_respelled {separator other : Char} (separates : isSeparator separator = true)
    (otherSeparates : isSeparator other = true) {after behind : Text}
    (same : segments after = segments behind)
    (before : Text) :
    normalize (before ++ separator :: after) = normalize (before ++ other :: behind) := by
  apply normalize_congr
  · cases before with
    | nil => exact separates.trans otherSeparates.symm
    | cons first before => rfl
  · rw [segments_around separates, segments_around otherSeparates, same]

theorem split_map {cut : Char → Bool} {change : Char → Char}
    (cuts : ∀ character, cut (change character) = cut character)
    (keeps : ∀ character, cut character = false → change character = character) (text : Text) :
    Text.split cut (text.map change) = Text.split cut text := by
  induction text with
  | nil => rfl
  | cons first rest ih =>
      rw [List.map_cons, Text.split, Text.split, cuts, ih]
      cases here : cut first with
      | true => rfl
      | false => rw [keeps first here]

theorem normalize_with_slashes (path : Text) : normalize (withSlashes path) = normalize path := by
  have separates : ∀ character,
      isSeparator (if character = '\\' then '/' else character) = isSeparator character := by
    intro character
    split
    · rename_i backslash
      rw [backslash]
      rfl
    · rfl
  apply normalize_congr
  · cases path with
    | nil => rfl
    | cons first rest => exact separates first
  · rw [segments, segments, withSlashes, split_map separates]
    intro character plain
    apply if_neg
    rintro rfl
    cases plain

theorem file_name_cons_slash (path : Text) : fileName ('/' :: path) = fileName path := by
  rw [fileName, fileName, List.reverse_cons, List.takeWhile_append]
  split
  · rename_i whole
    rw [List.takeWhile_cons_of_neg (by decide), List.append_nil,
      (List.takeWhile_prefix _).eq_of_length whole]
  · rfl

theorem file_name_normalize {path last : Text} (ends : (segments path).getLast? = some last) :
    fileName (normalize path) = last := by
  obtain ⟨front, whole⟩ := List.getLast?_eq_some_iff.mp ends
  have named : IsName last :=
    is_name_of_mem_segments (whole ▸ List.mem_append_right front (List.mem_singleton_self last))
  have absolutely := file_name_absolute front named.slash_not_mem
  cases root : startsAtRoot path with
  | true => rw [normalize_of_rooted root, whole, absolutely]
  | false => rw [normalize_of_relative root, whole, ← file_name_cons_slash, ← absolute, absolutely]

/--
Writing the pieces of a path from left to right normalizes it. What comes of it is the separator
that the path may start with and then the segments, with one `/` between them. So normalizing twice
changes nothing more, and it does not matter which separators a path has, whether they are repeated
and where a `.` stands. Two normalized paths are joined to the normalized path of both, which has
the last segment of the second as its last name.
-/
theorem normalize_forgets_spelling :
    (∀ path, (path.split isSeparator).foldl writePiece (if startsAtRoot path then ['/'] else []) =
      normalize path ∧
      normalize path = (if startsAtRoot path then ['/'] else []) ++
        Text.joinWith '/'
          ((path.split isSeparator).filter fun piece => piece ≠ [] && piece ≠ ['.'])) ∧
    (∀ path, normalize (normalize path) = normalize path ∧
      normalize (withSlashes path) = normalize path) ∧
    (∀ before separator after, isSeparator separator = true →
      normalize (before ++ separator :: after) = normalize (before ++ '/' :: after) ∧
      normalize (before ++ separator :: separator :: after) =
        normalize (before ++ separator :: after) ∧
      normalize (before ++ separator :: '.' :: '/' :: after) =
        normalize (before ++ separator :: after)) ∧
    ∀ directory path last, directory ≠ [] → (segments path).getLast? = some last →
      join (normalize directory) (normalize path) = normalize (directory ++ '/' :: path) ∧
      fileName (normalize (directory ++ '/' :: path)) = last := by
  refine ⟨fun path => ⟨foldl_write_piece_eq_normalize path, rfl⟩, fun path =>
    ⟨?_, normalize_with_slashes path⟩, ?_, ?_⟩
  · exact normalize_congr (starts_at_root_normalize path) (segments_normalize path)
  · intro before separator after separates
    have doubled : segments (separator :: after) = segments after :=
      segments_around separates [] after
    have dotted : segments ('.' :: '/' :: after) = segments after := segments_append ['.'] after
    exact ⟨normalize_respelled separates slash_separator rfl before,
      normalize_respelled separates separates doubled before,
      normalize_respelled separates separates dotted before⟩
  · intro directory path last nonempty ends
    have filled : segments path ≠ [] := by
      intro none
      rw [none] at ends
      cases ends
    refine ⟨join_normalized nonempty filled, file_name_normalize ?_⟩
    rw [segments_append, List.getLast?_append, ends, Option.some_or]

/-- The directory `.\a` and the path `b\\c/./d/`, which spell what they mean in different ways. -/
theorem normalize_forgets_spelling_joined :
    isSeparator '\\' = true ∧
      normalize ['b', '\\', '\\', 'c', '/', '.', '/', 'd', '/'] =
        normalize ['b', '\\', 'c', '/', '.', '/', 'd', '/'] ∧
      (segments ['b', '\\', '\\', 'c', '/', '.', '/', 'd', '/']).getLast? = some ['d'] ∧
      join (normalize ['.', '\\', 'a'])
        (normalize ['b', '\\', '\\', 'c', '/', '.', '/', 'd', '/']) =
        normalize (['.', '\\', 'a'] ++ '/' :: ['b', '\\', '\\', 'c', '/', '.', '/', 'd', '/']) ∧
      fileName
        (normalize (['.', '\\', 'a'] ++ '/' :: ['b', '\\', '\\', 'c', '/', '.', '/', 'd', '/'])) =
          ['d'] := by
  have separates : isSeparator '\\' = true := rfl
  have ends :
      (segments ['b', '\\', '\\', 'c', '/', '.', '/', 'd', '/']).getLast? = some ['d'] := by decide
  obtain ⟨-, -, respelled, joined⟩ := normalize_forgets_spelling
  exact ⟨separates, (respelled ['b'] '\\' ['c', '/', '.', '/', 'd', '/'] separates).2.1, ends,
    joined ['.', '\\', 'a'] _ ['d'] (List.cons_ne_nil _ _) ends⟩

end PathGlob.Path
