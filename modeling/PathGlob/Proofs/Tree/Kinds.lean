import Mathlib.Data.List.Nodup
import PathGlob.Proofs.Tree.History

/-!
# Files that turn out to be directories

What has something below it is a directory, however it was made. A file is made only where nothing
was, so no path is made as both; but nothing keeps later changes from adding a path below a file.
This file says which paths of a tree are a file and a directory: those that adding a file brought up
and below which something was added after that.
-/
namespace PathGlob

set_option autoImplicit false

open PathGlob.Path

/-- Whether adding a file is what brings a path up in a history, with `later` added after that. -/
def FiledFirst (history : List Change) (path : Text) (later : List Text) : Prop :=
  ∃ before name rest, history = before ++ .file name :: rest ∧
    resolve (baseAfter ['/'] before) name = path ∧ path ∉ created (additions ['/'] before) ∧
    later = additions (baseAfter ['/'] before) rest

theorem filed_first_append_iff (history : List Change) (change : Change) (path : Text) :
    (∃ later, FiledFirst (history ++ [change]) path later) ↔
      (∃ later, FiledFirst history path later) ∨
        ∃ name, change = .file name ∧ resolve (baseAfter ['/'] history) name = path ∧
          path ∉ created (additions ['/'] history) := by
  constructor
  · rintro ⟨later, before, name, rest, whole, resolved, fresh, -⟩
    rcases List.eq_nil_or_concat' rest with rfl | ⟨rest, last, rfl⟩
    · obtain ⟨rfl, rfl⟩ := List.append_singleton_inj.mp whole
      exact .inr ⟨name, rfl, resolved, fresh⟩
    · rw [← List.cons_append, ← List.append_assoc] at whole
      obtain ⟨rfl, rfl⟩ := List.append_singleton_inj.mp whole
      exact .inl ⟨_, before, name, rest, rfl, resolved, fresh, rfl⟩
  · rintro (⟨later, before, name, rest, rfl, resolved, fresh, -⟩ | ⟨name, rfl, resolved, fresh⟩)
    · exact ⟨_, before, name, rest ++ [change], by simp, resolved, fresh, rfl⟩
    · exact ⟨_, history, name, [], rfl, resolved, fresh, rfl⟩

/-- What comes to stand right below a path that adding a file brought up was added later. -/
theorem FiledFirst.child_iff {history : List Change} {path : Text} {later : List Text}
    (filed : FiledFirst history path later) :
    (∃ child ∈ created (additions ['/'] history), parent? child = some path) ↔
      ∃ added ∈ later, path ∈ lineage added ∧ added ≠ path := by
  rcases filed with ⟨before, name, rest, rfl, resolved, fresh, rfl⟩
  have whole : additions ['/'] (before ++ .file name :: rest) =
      additions ['/'] before ++ path :: additions (baseAfter ['/'] before) rest := by
    rw [additions_append, additions, ← resolved]
    rfl
  rw [whole]
  constructor
  · rintro ⟨child, member, below⟩
    rcases mem_created_iff.mp member with rfl | ⟨added, among, inside⟩
    · cases below
    have above : path ∈ lineage added := parent_mem_lineage inside below
    have apart : added ≠ path := by
      rintro rfl
      exact not_mem_lineage_parent below inside
    rcases List.mem_append.mp among with earlier | here
    · exact absurd (mem_created_iff.mpr (.inr ⟨added, earlier, above⟩)) fresh
    · exact ⟨added, (List.mem_cons.mp here).resolve_left apart, above, apart⟩
  · rintro ⟨added, among, above, apart⟩
    rcases child_mem_lineage above apart.symm with ⟨child, inside, below⟩
    have member :
        added ∈ additions ['/'] before ++ path :: additions (baseAfter ['/'] before) rest :=
      List.mem_append_right _ (List.mem_cons_of_mem _ among)
    exact ⟨child, mem_created_iff.mpr (.inr ⟨added, member, inside⟩), below⟩

namespace Tree

variable {tree : Tree}

theorem has_file_make_directories (tree : Tree) (path file : Text) :
    (tree.makeDirectories path).hasFile file = tree.hasFile file := by
  rw [make_directories_eq]
  simp [hasFile]

theorem has_file_settle (tree : Tree) (path file : Text) :
    (tree.settle path).hasFile file = tree.hasFile file := by
  rw [settle]
  cases parent? path with
  | none => rfl
  | some parent => exact has_file_make_directories tree parent file

theorem Closed.has_file_add_file (closed : tree.Closed) (name path : Text) :
    (tree.addFile name).hasFile path = true ↔
      tree.hasFile path = true ∨ tree.resolve name = path ∧ path ∉ tree.paths := by
  cases present : tree.has (tree.resolve name) with
  | true =>
      have known := (has_entry_iff tree _).mp ((closed.has_iff _).mp present)
      rw [add_file_of_has present, iff_self_or]
      rintro ⟨rfl, fresh⟩
      exact absurd known fresh
  | false =>
      have fresh := (closed.has_eq_false_iff _).mp present
      rw [add_file_settle present, has_file_append, has_file_settle, Bool.or_eq_true,
        decide_eq_true_eq, Entry.mk.injEq]
      apply or_congr_right
      constructor
      · rintro ⟨rfl, -⟩
        exact ⟨rfl, fresh⟩
      · rintro ⟨rfl, -⟩
        exact ⟨rfl, rfl⟩

/-- The only new file of a change is the one it adds, and that only where nothing was. -/
theorem Closed.has_file_change (closed : tree.Closed) (change : Change) (path : Text) :
    (tree.change change).hasFile path = true ↔
      tree.hasFile path = true ∨ ∃ name, change = .file name ∧ tree.resolve name = path ∧
      path ∉ tree.paths := by
  cases change with
  | file name =>
      rw [Tree.change, closed.has_file_add_file]
      simp
  | directory name =>
      rw [Tree.change, addDirectory, has_file_make_directories]
      simp
  | enter name =>
      have kept : (tree.enter name).hasFile path = tree.hasFile path :=
        has_file_make_directories tree _ path
      rw [Tree.change, kept]
      simp
  | forbid name => simp [Tree.change, forbid, hasFile]

/-- The files of a tree are the paths that adding a file brought up. -/
theorem has_file_after_iff (history : List Change) (path : Text) :
    (({} : Tree).after history).hasFile path = true ↔ ∃ later, FiledFirst history path later := by
  induction history using List.reverseRecOn with
  | nil => simp [FiledFirst, after, hasFile]
  | append_singleton history change ih =>
      have step := (grown_after history).closed.has_file_change change path
      simp only [ih, paths_after, Tree.resolve, working_directory_after] at step
      rw [after_append, filed_first_append_iff]
      exact step

/--
A path made as a file was not made as a directory, so it is one just if something is below it.
-/
theorem Grown.has_directory_of_file_iff (grown : tree.Grown) {path : Text}
    (file : tree.hasFile path = true) :
    tree.hasDirectory path = true ↔ ∃ child ∈ tree.paths, parent? child = some path := by
  constructor
  · intro directory
    rw [hasDirectory, Bool.or_eq_true] at directory
    rcases directory with made | above
    · -- No path is that of two entries.
      have same := List.inj_on_of_nodup_map grown.distinct (List.contains_iff_mem.mp file)
        (List.contains_iff_mem.mp made) rfl
      cases same
    · rcases List.exists_mem_of_ne_nil (tree.children path) (by simpa using above)
        with ⟨child, listed⟩
      have known := (mem_children_iff tree path child.path).mp (List.mem_map_of_mem listed)
      rw [has_entry_iff] at known
      exact ⟨child.path, known⟩
  · rintro ⟨child, member, below⟩
    exact has_directory_of_child ((has_entry_iff tree child).mpr member) below

/--
A path is a file and a directory just if adding a file brought it up and something was added below
it after that.
-/
theorem file_and_directory_iff (paths : List Text) (changes : List Change) (path : Text) :
    let tree := (ofPaths paths).after changes
    (tree.filesystem.isFile path = true ∧ tree.filesystem.isDirectory path = true) ↔
      ∃ later, FiledFirst (paths.map Change.ofPath ++ changes) (tree.resolve path) later ∧
        ∃ added ∈ later, tree.resolve path ∈ lineage added ∧ added ≠ tree.resolve path := by
  intro tree
  have whole : tree = ({} : Tree).after (paths.map Change.ofPath ++ changes) :=
    of_paths_after paths changes
  have made : tree.paths = created (additions ['/'] (paths.map Change.ofPath ++ changes)) :=
    whole ▸ paths_after _
  have grown : tree.Grown := of_paths_after_grown paths changes
  have filed : tree.hasFile (tree.resolve path) = true ↔
      ∃ later, FiledFirst (paths.map Change.ofPath ++ changes) (tree.resolve path) later := by
    rw [← has_file_after_iff, ← whole]
  constructor
  · rintro ⟨file, directory⟩
    obtain ⟨later, first⟩ := filed.mp file
    have below := (grown.has_directory_of_file_iff file).mp directory
    rw [made, first.child_iff] at below
    exact ⟨later, first, below⟩
  · rintro ⟨later, first, below⟩
    have file := filed.mpr ⟨later, first⟩
    rw [← first.child_iff, ← made] at below
    exact ⟨file, (grown.has_directory_of_file_iff file).mpr below⟩

/-- Adding a path below a file leaves the file a file. -/
theorem file_above_entry_is_directory :
    let tree := ofPaths [['/', 'a'], ['/', 'a', '/', 'b']]
    tree.filesystem.isFile ['/', 'a'] = true ∧ tree.filesystem.isDirectory ['/', 'a'] = true := by
  decide +kernel

end Tree

end PathGlob
