import PathGlob.Distinct
import PathGlob.Proofs.Path.Resolved
import PathGlob.Proofs.Tree.Shape

/-!
# What a history makes of a tree

A tree is the outcome of a history of changes, and every change takes its path from the working
directory of its moment. The entries are then known from the paths that were added alone: they are
the root, those paths and all paths above them, in the order in which they first came up, whatever
was in the tree when they did. A path is a file if adding a file was what first brought it up.
-/
namespace PathGlob

set_option autoImplicit false

open PathGlob.Path

inductive Change where
  | file (path : Text)
  | directory (path : Text)
  | enter (path : Text)
  | forbid (path : Text)
  deriving DecidableEq, Repr

namespace Change

def ofPath (path : Text) : Change :=
  if path.getLast? == some '/' then .directory path else .file path

/--
The path that a change adds from a working directory. A directory to enter is added as a normalized
path, which is the path entered unless that was given without a segment.
-/
def added? (base : Text) : Change → Option Text
  | .file path => some (resolve base path)
  | .directory path => some (resolve base path)
  | .enter path => some (normalize (resolve base path))
  | .forbid _ => none

def baseBehind (base : Text) : Change → Text
  | .enter path => resolve base path
  | _ => base

end Change

def baseAfter (base : Text) (history : List Change) : Text := history.foldl Change.baseBehind base

def additions (base : Text) : List Change → List Text
  | [] => []
  | change :: history => (change.added? base).toList ++ additions (change.baseBehind base) history

def descent (path : Text) : List Text := (lineage path).reverse

/-- The root, some paths and all paths above these, each where it first comes up. -/
def created (added : List Text) : List Text := distinctBy id (['/'] :: added.flatMap descent)

namespace Tree

def change (tree : Tree) : Change → Tree
  | .file path => tree.addFile path
  | .directory path => tree.addDirectory path
  | .enter path => tree.enter path
  | .forbid path => tree.forbid path

def after (tree : Tree) (history : List Change) : Tree := history.foldl change tree

def paths (tree : Tree) : List Text := tree.entries.map Entry.path

end Tree

theorem additions_append (base : Text) (first later : List Change) :
    additions base (first ++ later) =
      additions base first ++ additions (baseAfter base first) later := by
  induction first generalizing base with
  | nil => rfl
  | cons change first ih =>
      rw [List.cons_append, additions, additions, ih, List.append_assoc]
      rfl

theorem base_after_append (base : Text) (first later : List Change) :
    baseAfter base (first ++ later) = baseAfter (baseAfter base first) later := List.foldl_append

theorem is_resolved_base_after {base : Text} (resolved : IsResolved base) (history : List Change) :
    IsResolved (baseAfter base history) := by
  induction history generalizing base with
  | nil => exact resolved
  | cons change history ih =>
      apply ih
      cases change with
      | enter path => exact resolved.resolve path
      | file path => exact resolved
      | directory path => exact resolved
      | forbid path => exact resolved

theorem is_resolved_of_mem_additions {base : Text} (resolved : IsResolved base)
    {history : List Change} :
    ∀ path ∈ additions base history, IsResolved path := by
  induction history generalizing base with
  | nil => exact List.forall_mem_nil _
  | cons change history ih =>
      have later : IsResolved (change.baseBehind base) := is_resolved_base_after resolved [change]
      rw [additions, List.forall_mem_append]
      refine ⟨?_, ih later⟩
      intro path added
      rw [Option.mem_toList] at added
      cases change with
      | file given =>
          cases added
          exact resolved.resolve given
      | directory given =>
          cases added
          exact resolved.resolve given
      | enter given =>
          cases added
          exact (is_place_normalize (resolved.resolve given).starts_at_root).is_resolved
      | forbid given => cases added

section Created

variable {added : List Text} {path : Text}

theorem mem_descent_iff (path other : Text) : other ∈ descent path ↔ other ∈ lineage path :=
  List.mem_reverse

theorem mem_created_iff :
    path ∈ created added ↔ path = ['/'] ∨ ∃ given ∈ added, path ∈ lineage given := by
  have known := key_mem_distinctBy id (['/'] :: added.flatMap descent) path
  rw [List.map_id, List.map_id] at known
  rw [created, known, List.mem_cons, List.mem_flatMap]
  simp only [mem_descent_iff]

theorem is_resolved_of_mem_created (resolved : ∀ given ∈ added, IsResolved given)
    (member : path ∈ created added) : IsResolved path := by
  rcases mem_created_iff.mp member with rfl | ⟨given, among, inside⟩
  · exact is_resolved_root
  · exact (resolved given among).of_mem_lineage inside

theorem nodup_created (added : List Text) : (created added).Nodup := by
  have distinct := nodup_distinctBy id (['/'] :: added.flatMap descent)
  rwa [List.map_id] at distinct

theorem parent_mem_created {parent : Text} (member : path ∈ created added)
    (above : parent? path = some parent) : parent ∈ created added := by
  rw [mem_created_iff] at member ⊢
  rcases member with rfl | ⟨given, among, inside⟩
  · cases above
  · exact .inr ⟨given, among, parent_mem_lineage inside above⟩

theorem created_append (first later : List Text) :
    created (first ++ later) =
      created first ++ distinctFrom id (created first) (later.flatMap descent) := by
  have seen : ∀ wanted, wanted ∈ (['/'] :: first.flatMap descent).map id ++ [] ↔
      wanted ∈ created first := by
    intro wanted
    have known := key_mem_distinctBy id (['/'] :: first.flatMap descent) wanted
    rw [List.map_id (distinctBy _ _)] at known
    rw [List.append_nil, created, known]
  rw [created, List.flatMap_append, ← List.cons_append, distinctBy, distinctFrom_append,
    distinctFrom_congr seen]
  rfl

end Created

theorem normalize_base_mem_created (history : List Change) :
    normalize (baseAfter ['/'] history) ∈ created (additions ['/'] history) := by
  induction history using List.reverseRecOn with
  | nil => exact mem_created_iff.mpr (.inl rfl)
  | append_singleton history change ih =>
      rw [base_after_append, additions_append]
      cases change with
      | enter path =>
          have added : normalize (resolve (baseAfter ['/'] history) path) ∈
              additions (baseAfter ['/'] history) [.enter path] := List.mem_singleton_self _
          exact mem_created_iff.mpr (.inr ⟨_, List.mem_append_right _ added, mem_lineage_self _⟩)
      | file path => exact created_append _ _ ▸ List.mem_append_left _ ih
      | directory path => exact created_append _ _ ▸ List.mem_append_left _ ih
      | forbid path => exact created_append _ _ ▸ List.mem_append_left _ ih

namespace Tree

variable {tree : Tree} {path : Text}

theorem has_entry_iff (tree : Tree) (path : Text) : tree.HasEntry path ↔ path ∈ tree.paths :=
  List.mem_map.symm

theorem paths_append (tree : Tree) (entry : Entry) :
    (tree.append entry).paths = tree.paths ++ [entry.path] := by
  simp [paths, append]

theorem Closed.has_eq_false_iff (closed : tree.Closed) (path : Text) :
    tree.has path = false ↔ path ∉ tree.paths := by
  rw [← Bool.not_eq_true, closed.has_iff, has_entry_iff]

theorem Closed.lineage_subset (closed : tree.Closed) (present : path ∈ tree.paths) :
    lineage path ⊆ tree.paths := by
  induction path using lineage.induct with
  | case1 path top =>
      rw [lineage_of_none top]
      exact List.cons_subset.mpr ⟨present, List.nil_subset _⟩
  | case2 path parent above ih =>
      rw [lineage_of_some above]
      rw [← has_entry_iff] at present
      exact List.cons_subset.mpr ⟨(has_entry_iff _ _).mp present,
        ih ((has_entry_iff _ _).mp (closed path present parent above))⟩

theorem children_paths (tree : Tree) (directory : Text) :
    (tree.children directory).map Entry.path = tree.paths.filter (parent? · == some directory) := by
  rw [paths, List.filter_map]
  rfl

/-- An entry that is made where nothing was comes behind the missing paths above it. -/
theorem paths_settle (missing : path ∉ tree.paths)
    (higher : ∀ parent, parent? path = some parent →
      (tree.makeDirectories parent).paths =
        tree.paths ++ distinctFrom id tree.paths (descent parent))
    (kind : EntryKind) :
    ((tree.settle path).append ⟨path, kind⟩).paths =
      tree.paths ++ distinctFrom id tree.paths (descent path) := by
  rw [paths_append, settle, descent]
  cases above : parent? path with
  | none => simp [lineage_of_none above, distinctFrom, missing]
  | some parent =>
      have fresh : path ∉ (descent parent).map id ++ tree.paths := by
        rw [List.map_id, List.mem_append, mem_descent_iff]
        exact fun known => known.elim (not_mem_lineage_parent above) missing
      have last : distinctFrom id ((descent parent).map id ++ tree.paths) [path] = [path] :=
        if_neg fresh
      rw [lineage_of_some above, List.reverse_cons, ← descent, distinctFrom_append, last,
        higher parent above, List.append_assoc]

theorem Closed.nothing_new (closed : tree.Closed) (present : path ∈ tree.paths) :
    distinctFrom id tree.paths (descent path) = [] := by
  apply distinctFrom_eq_nil
  intro other among
  exact closed.lineage_subset present ((mem_descent_iff path other).mp among)

theorem Closed.paths_make_directories (closed : tree.Closed) (path : Text) :
    (tree.makeDirectories path).paths =
      tree.paths ++ distinctFrom id tree.paths (descent path) := by
  -- Up the path: below what is there nothing is new, and what is missing comes behind what is
  -- above.
  induction length : path.length using Nat.strongRecOn generalizing path with
  | _ length ih =>
      by_cases present : path ∈ tree.paths
      · rw [closed.nothing_new present, List.append_nil,
          make_directories_of_has
            ((closed.has_iff path).mpr ((has_entry_iff tree path).mpr present))]
      · rw [make_directories_settle ((closed.has_eq_false_iff path).mpr present)]
        apply paths_settle present
        intro parent above
        exact ih parent.length (length ▸ length_parent_lt above) parent rfl

theorem Closed.mem_paths_make_directories (closed : tree.Closed) (path other : Text) :
    other ∈ (tree.makeDirectories path).paths ↔ other ∈ tree.paths ∨ other ∈ lineage path := by
  have fresh := key_mem_distinctFrom id tree.paths (descent path) other
  rw [List.map_id, List.map_id, mem_descent_iff] at fresh
  rw [closed.paths_make_directories, List.mem_append, fresh]
  tauto

theorem Closed.make_directories (closed : tree.Closed) (path : Text) :
    (tree.makeDirectories path).Closed := by
  intro other entry parent above
  rw [has_entry_iff, closed.mem_paths_make_directories] at entry ⊢
  rcases entry with old | higher
  · rw [← has_entry_iff] at old ⊢
    exact .inl (closed other old parent above)
  · exact .inr (parent_mem_lineage higher above)

theorem Closed.settle_missing (closed : tree.Closed) (missing : tree.has path = false) :
    (tree.settle path).has path = false := by
  rw [settle]
  cases above : parent? path with
  | none => exact missing
  | some parent =>
      rw [closed.has_eq_false_iff] at missing
      dsimp only
      rw [(closed.make_directories parent).has_eq_false_iff, closed.mem_paths_make_directories]
      exact fun known => known.elim missing (not_mem_lineage_parent above)

theorem Closed.paths_add_file (closed : tree.Closed) (path : Text) :
    (tree.addFile path).paths =
      tree.paths ++ distinctFrom id tree.paths (descent (tree.resolve path)) := by
  by_cases present : tree.resolve path ∈ tree.paths
  · rw [closed.nothing_new present, List.append_nil,
      add_file_of_has ((closed.has_iff _).mpr ((has_entry_iff tree _).mpr present))]
  · rw [add_file_settle ((closed.has_eq_false_iff _).mpr present)]
    exact paths_settle present (fun parent _ => closed.paths_make_directories parent) .file

/-- A change makes what it adds and what is above that, as far as these are missing. -/
theorem Closed.paths_change (closed : tree.Closed) (resolved : IsResolved tree.workingDirectory)
    (change : Change) :
    (tree.change change).paths = tree.paths ++
      distinctFrom id tree.paths
        ((change.added? tree.workingDirectory).toList.flatMap descent) := by
  cases change with
  | file path =>
      rw [Change.added?, Option.toList_some, List.flatMap_singleton]
      exact closed.paths_add_file path
  | directory path =>
      rw [Change.added?, Option.toList_some, List.flatMap_singleton]
      exact closed.paths_make_directories (tree.resolve path)
  | enter path =>
      rw [Change.added?, Option.toList_some, List.flatMap_singleton,
        ← resolve_of_rooted tree.workingDirectory (resolved.resolve path).starts_at_root]
      exact closed.paths_make_directories (tree.resolve (tree.resolve path))
  | forbid path => simp [Change.added?, distinctFrom, Tree.change, forbid, paths]

theorem working_directory_change (tree : Tree) (change : Change) :
    (tree.change change).workingDirectory = change.baseBehind tree.workingDirectory := by
  cases change with
  | file path =>
      rw [Tree.change, addFile]
      dsimp only
      split
      · rfl
      · cases parent? (tree.resolve path) <;> simp [append, make_directories_eq, Change.baseBehind]
  | directory path => simp [Tree.change, addDirectory, make_directories_eq, Change.baseBehind]
  | enter path => rfl
  | forbid path => rfl

theorem after_append (tree : Tree) (first later : List Change) :
    tree.after (first ++ later) = (tree.after first).after later := List.foldl_append

theorem working_directory_after (tree : Tree) (history : List Change) :
    (tree.after history).workingDirectory = baseAfter tree.workingDirectory history := by
  induction history generalizing tree with
  | nil => rfl
  | cons change history ih =>
      rw [after, List.foldl_cons, ← after, ih, working_directory_change]
      rfl

theorem closed_of_created {added : List Text} (same : tree.paths = created added) :
    tree.Closed := by
  intro path entry parent above
  rw [has_entry_iff, same] at entry ⊢
  exact parent_mem_created entry above

/-- The entries of a tree are what its history created, in the same order. -/
theorem paths_after (history : List Change) :
    (({} : Tree).after history).paths = created (additions ['/'] history) := by
  induction history using List.reverseRecOn with
  | nil => rfl
  | append_singleton history change ih =>
      have directory := working_directory_after {} history
      have resolved := is_resolved_base_after is_resolved_root history
      have made := (closed_of_created ih).paths_change (by rwa [directory]) change
      rw [after_append, additions_append, created_append, ← ih, after, List.foldl_cons,
        List.foldl_nil, made, directory, additions, additions, List.append_nil]

structure Grown (tree : Tree) : Prop where
  closed : tree.Closed
  distinct : tree.paths.Nodup
  entries : ∀ path ∈ tree.paths, IsResolved path
  base : IsResolved tree.workingDirectory
  entered : normalize tree.workingDirectory ∈ tree.paths

theorem grown_after (history : List Change) : (({} : Tree).after history).Grown where
  closed := closed_of_created (paths_after history)
  distinct := paths_after history ▸ nodup_created _
  entries := by
    rw [paths_after]
    exact fun _ => is_resolved_of_mem_created (is_resolved_of_mem_additions is_resolved_root)
  base := working_directory_after {} history ▸ is_resolved_base_after is_resolved_root history
  entered := by
    rw [working_directory_after, paths_after]
    exact normalize_base_mem_created history

theorem of_paths_eq (paths : List Text) :
    ofPaths paths = ({} : Tree).after (paths.map Change.ofPath) := by
  rw [ofPaths, after, List.foldl_map]
  congr
  funext tree path
  rw [add, Change.ofPath]
  split <;> rfl

theorem of_paths_after (paths : List Text) (changes : List Change) :
    (ofPaths paths).after changes = ({} : Tree).after (paths.map Change.ofPath ++ changes) := by
  rw [after_append, of_paths_eq]

theorem of_paths_after_grown (paths : List Text) (changes : List Change) :
    ((ofPaths paths).after changes).Grown := of_paths_after paths changes ▸ grown_after _

end Tree

end PathGlob
