import PathGlob.Proofs.Tree.History

/-!
# Relative paths and the working directory

A relative path means the names of the working directory with its own behind them, which is what the
text of the working directory with a separator and the path behind it means as well. This needs a
name in the path. A path without one is resolved to the working directory with a separator at its
end, and that spelling is never an entry for the working directory itself. So unless the working
directory is the root, something is answered otherwise for such a path than for the working
directory.
-/
namespace PathGlob

set_option autoImplicit false

open PathGlob.Path

structure Filesystem.Alike (filesystem : Filesystem) (left right : Text) : Prop where
  isFile : filesystem.isFile left = filesystem.isFile right
  isDirectory : filesystem.isDirectory left = filesystem.isDirectory right
  files : (filesystem.files left).outcome = (filesystem.files right).outcome
  directories : (filesystem.directories left).outcome = (filesystem.directories right).outcome
  entries : (filesystem.entries left).outcome = (filesystem.entries right).outcome

namespace Tree

variable {tree : Tree}

theorem alike_of_resolve_eq {left right : Text} (same : tree.resolve left = tree.resolve right) :
    tree.filesystem.Alike left right := by
  have listed : ∀ keep, (tree.list keep left).outcome = (tree.list keep right).outcome := by
    intro keep
    rw [list, list, same]
  exact ⟨congrArg tree.hasFile same, congrArg tree.hasDirectory same, listed _, listed _, listed _⟩

theorem Grown.children_trailing (grown : tree.Grown) {names : List Text}
    (named : ∀ name ∈ names, IsName name) : tree.children (absolute names ++ ['/']) = [] := by
  apply List.eq_nil_iff_forall_not_mem.mpr
  intro child listed
  obtain ⟨entry, below⟩ := (mem_children_iff tree _ _).mp (List.mem_map_of_mem listed)
  have place := (grown.entries _ ((has_entry_iff tree _).mp entry)).is_place_parent below
  exact not_is_place_trailing named place

/--
A directory answers otherwise when it is spelled with a separator at its end. Such a spelling lists
nothing, and it is an entry only as one that is listed for the directory.
-/
theorem Grown.not_alike_trailing (grown : tree.Grown) {names : List Text}
    (named : ∀ name ∈ names, IsName name) (present : absolute names ∈ tree.paths)
    {spelled plain : Text} (trailing : tree.resolve spelled = absolute names ++ ['/'])
    (bare : tree.resolve plain = absolute names) :
    ¬ tree.filesystem.Alike spelled plain := by
  intro alike
  have entries := alike.entries
  rw [filesystem] at entries
  dsimp only at entries
  rw [list, list, trailing, bare, grown.children_trailing named] at entries
  have known : tree.has (absolute names ++ ['/']) = true := by
    have file := alike.isFile
    have directory := alike.isDirectory
    rw [filesystem] at file directory
    dsimp only at file directory
    rw [trailing, bare] at file directory
    rw [has, file, directory, ← has, grown.closed.has_iff, has_entry_iff]
    exact present
  have listed :=
    (mem_children_iff tree _ _).mpr ⟨(grown.closed.has_iff _).mp known, parent_trailing names⟩
  split at entries <;> split at entries
  · -- Both fail, and say for which spelling.
    rw [Except.error.injEq, ListingError.unreadable.injEq] at entries
    simpa using congrArg List.length entries
  · cases entries
  · cases entries
  · rw [Except.ok.injEq, List.map_nil, List.filter_nil, List.filter_true] at entries
    rw [← entries] at listed
    cases listed

/--
A relative path means what the working directory with the path behind it means, just if the path has
a name or the working directory is the root.
-/
theorem relative_is_behind_working_directory_iff (paths : List Text) (changes : List Change)
    {path : Text} (relative : startsAtRoot path = false) :
    let tree := (ofPaths paths).after changes
    tree.filesystem.Alike path (tree.workingDirectory ++ '/' :: path) ↔
      normalize path ≠ [] ∨ tree.workingDirectory = ['/'] := by
  intro tree
  have grown : tree.Grown := of_paths_after_grown paths changes
  have alone :
      tree.resolve path = slashed (segments tree.workingDirectory) ++ absolute (segments path) :=
    grown.base.resolve_relative relative
  have behind : tree.resolve (tree.workingDirectory ++ '/' :: path) =
      absolute (segments tree.workingDirectory ++ segments path) := grown.base.resolve_behind path
  rw [Ne, normalize_eq_nil_iff relative, ← grown.base.segments_eq_nil_iff]
  constructor
  · intro alike
    by_contra neither
    obtain ⟨nameless, below⟩ := not_or.mp neither
    rw [not_not] at nameless
    rw [nameless, slashed_append_root below] at alone
    rw [nameless, List.append_nil] at behind
    have present := grown.entered
    rw [normalize_of_rooted grown.base.starts_at_root] at present
    exact grown.not_alike_trailing (fun _ => is_name_of_mem_segments) present alone behind alike
  · intro either
    apply alike_of_resolve_eq
    rw [alone, behind]
    rcases either with named | top
    · exact slashed_append_absolute _ named
    · rw [top]
      rfl

theorem relative_is_behind_working_directory_spelled :
    let tree := (ofPaths []).after [.enter ['/', 'a']]
    startsAtRoot ['.', '\\', 'b'] = false ∧
      tree.filesystem.Alike ['.', '\\', 'b'] (tree.workingDirectory ++ '/' :: ['.', '\\', 'b']) :=
  ⟨by decide,
    (relative_is_behind_working_directory_iff [] [.enter ['/', 'a']] (by decide)).mpr
      (.inl (by decide))⟩

/-- The empty path does not mean the working directory. -/
theorem empty_path_is_no_directory :
    let tree := (ofPaths []).after [.enter ['/', 'a']]
    tree.filesystem.isDirectory [] = false ∧
      tree.filesystem.isDirectory (tree.workingDirectory ++ '/' :: []) = true := by
  decide +kernel

end Tree

end PathGlob
