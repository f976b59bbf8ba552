import PathGlob.Proofs.Tree.History
import PathGlob.Proofs.Tree.Reach

/-!
# Trees kept directory by directory

A tree can also be kept as a catalog: a list for each directory, of what is right below it, and the
files. To add an entry is then to put it on the list of the directory above, which is made before if
it is missing, and to give a new directory an empty list of its own. A file below which something is
added gets a list as well. Here a catalog is shown to answer as the tree with the same history does,
and its lists to be what the history created: each entry is on one list, once, in order.
-/
namespace PathGlob

set_option autoImplicit false

open PathGlob.Path

structure Catalog where
  workingDirectory : Text := ['/']
  contents : Text → Option (List Text) := fun path => if path = ['/'] then some [] else none
  files : List Text := []
  unreadable : List Text := []

namespace Catalog

def resolve (catalog : Catalog) (path : Text) : Text := Path.resolve catalog.workingDirectory path

def hasFile (catalog : Catalog) (path : Text) : Bool := catalog.files.contains path

def hasDirectory (catalog : Catalog) (path : Text) : Bool := (catalog.contents path).isSome

def has (catalog : Catalog) (path : Text) : Bool :=
  catalog.hasFile path || catalog.hasDirectory path

/-- Puts a path at the end of the list of the directory above it, which gets one if it has none. -/
def enlist (catalog : Catalog) (path : Text) : Catalog :=
  match parent? path with
  | some parent =>
    { catalog with
      contents := fun place =>
        if place = parent then some ((catalog.contents place).getD [] ++ [path])
        else catalog.contents place }
  | none => catalog

def openList (catalog : Catalog) (path : Text) : Catalog :=
  { catalog with contents := fun place => if place = path then some [] else catalog.contents place }

def keepFile (catalog : Catalog) (path : Text) : Catalog :=
  { catalog with files := catalog.files ++ [path] }

def makeDirectory (catalog : Catalog) (path : Text) : Catalog :=
  if catalog.has path then catalog
  else
    match _above : parent? path with
    | some parent => ((catalog.makeDirectory parent).enlist path).openList path
    | none => (catalog.enlist path).openList path
termination_by path.length
decreasing_by exact length_parent_lt _above

def addDirectory (catalog : Catalog) (path : Text) : Catalog :=
  catalog.makeDirectory (catalog.resolve path)

def settle (catalog : Catalog) (path : Text) : Catalog :=
  match parent? path with
  | some parent => catalog.makeDirectory parent
  | none => catalog

def addFile (catalog : Catalog) (path : Text) : Catalog :=
  let path := catalog.resolve path
  if catalog.has path then catalog else ((catalog.settle path).enlist path).keepFile path

def enter (catalog : Catalog) (path : Text) : Catalog :=
  let path := catalog.resolve path
  { catalog.addDirectory path with workingDirectory := path }

def forbid (catalog : Catalog) (path : Text) : Catalog :=
  { catalog with unreadable := catalog.unreadable ++ [catalog.resolve path] }

def change (catalog : Catalog) : Change → Catalog
  | .file path => catalog.addFile path
  | .directory path => catalog.addDirectory path
  | .enter path => catalog.enter path
  | .forbid path => catalog.forbid path

def after (catalog : Catalog) (history : List Change) : Catalog := history.foldl change catalog

def ofPaths (paths : List Text) : Catalog := ({} : Catalog).after (paths.map Change.ofPath)

def list (catalog : Catalog) (keep : Text → Bool) (path : Text) : Listing :=
  let path := catalog.resolve path
  { read := [path]
    outcome :=
      if catalog.unreadable.contains path then .error (.unreadable path)
      else .ok (((catalog.contents path).getD []).filter keep) }

def filesystem (catalog : Catalog) : Filesystem where
  root := ['/']
  workingDirectory := catalog.workingDirectory
  isFile path := catalog.hasFile (catalog.resolve path)
  isDirectory path := catalog.hasDirectory (catalog.resolve path)
  files := catalog.list catalog.hasFile
  directories := catalog.list catalog.hasDirectory
  entries := catalog.list fun _ => true

structure Holds (catalog : Catalog) (tree : Tree) : Prop where
  workingDirectory : catalog.workingDirectory = tree.workingDirectory
  unreadable : catalog.unreadable = tree.unreadable
  files : ∀ path, catalog.hasFile path = tree.hasFile path
  contents : ∀ path, catalog.contents path =
    if tree.hasDirectory path then some ((tree.children path).map Entry.path) else none

namespace Holds

variable {catalog : Catalog} {tree : Tree} {path : Text}

theorem resolve_eq (holds : catalog.Holds tree) (path : Text) :
    catalog.resolve path = tree.resolve path := by
  rw [Catalog.resolve, Tree.resolve, holds.workingDirectory]

theorem has_directory_eq (holds : catalog.Holds tree) (path : Text) :
    catalog.hasDirectory path = tree.hasDirectory path := by
  rw [hasDirectory, holds.contents]
  cases tree.hasDirectory path <;> rfl

theorem has_eq (holds : catalog.Holds tree) (path : Text) : catalog.has path = tree.has path := by
  rw [has, Tree.has, holds.files, holds.has_directory_eq]

theorem listed_eq (holds : catalog.Holds tree) (path : Text) :
    (catalog.contents path).getD [] = (tree.children path).map Entry.path := by
  rw [holds.contents]
  cases directory : tree.hasDirectory path with
  | true => rfl
  | false =>
      rw [Tree.children_of_no_directory directory]
      rfl

/-- Putting a new entry on the list above it is what making it adds to the children. -/
theorem enlist_contents (holds : catalog.Holds tree) (entry : Entry) (place : Text) :
    (catalog.enlist entry.path).contents place =
      if tree.hasDirectory place || decide (parent? entry.path = some place) then
        some (((tree.append entry).children place).map Entry.path)
      else none := by
  rw [enlist, Tree.children_append]
  cases above : parent? entry.path with
  | none => simp [holds.contents]
  | some parent =>
      by_cases same : place = parent
      · subst same
        simp [holds.listed_eq]
      · simp [same, Ne.symm same, holds.contents]

theorem enlist_rest (catalog : Catalog) (path : Text) :
    (catalog.enlist path).workingDirectory = catalog.workingDirectory ∧
      (catalog.enlist path).unreadable = catalog.unreadable ∧
      (catalog.enlist path).files = catalog.files := by
  rw [enlist]
  split <;> simp

theorem keep_file (holds : catalog.Holds tree) (path : Text) :
    ((catalog.enlist path).keepFile path).Holds (tree.append ⟨path, .file⟩) where
  workingDirectory := (enlist_rest catalog path).1.trans holds.workingDirectory
  unreadable := (enlist_rest catalog path).2.1.trans holds.unreadable
  files other := by
    have known := holds.files other
    rw [hasFile] at known
    rw [Tree.has_file_append, ← known, hasFile, keepFile, (enlist_rest catalog path).2.2]
    simp
  contents place := by
    have listed := holds.enlist_contents ⟨path, .file⟩ place
    rw [Tree.has_directory_append, keepFile]
    simpa using listed

theorem open_list (holds : catalog.Holds tree) (missing : tree.has path = false) :
    ((catalog.enlist path).openList path).Holds (tree.append ⟨path, .directory⟩) where
  workingDirectory := (enlist_rest catalog path).1.trans holds.workingDirectory
  unreadable := (enlist_rest catalog path).2.1.trans holds.unreadable
  files other := by
    have known := holds.files other
    rw [hasFile] at known
    rw [Tree.has_file_append, ← known, hasFile, openList, (enlist_rest catalog path).2.2]
    simp
  contents place := by
    have listed := holds.enlist_contents ⟨path, .directory⟩ place
    rw [Tree.has_directory_append]
    by_cases same : place = path
    · -- The path is no directory yet and not above itself, so nothing is listed for it.
      subst same
      rw [Tree.has, Bool.or_eq_false_iff] at missing
      have apart : parent? place ≠ some place :=
        fun above => absurd (length_parent_lt above) (Nat.lt_irrefl _)
      simp [openList, Tree.children_append, apart, Tree.children_of_no_directory missing.2]
    · simpa [openList, same] using listed

theorem make_directory_settle (missing : catalog.has path = false) :
    catalog.makeDirectory path = ((catalog.settle path).enlist path).openList path := by
  rw [makeDirectory, if_neg (by simp [missing]), Catalog.settle]
  split <;> simp [*]

theorem make_directory (holds : catalog.Holds tree) (closed : tree.Closed) (path : Text) :
    (catalog.makeDirectory path).Holds (tree.makeDirectories path) := by
  induction length : path.length using Nat.strongRecOn generalizing path with
  | _ length ih =>
      have known := holds.has_eq path
      cases present : tree.has path with
      | true =>
          rw [present] at known
          rw [Tree.make_directories_of_has present, makeDirectory, if_pos known]
          exact holds
      | false =>
          rw [present] at known
          rw [Tree.make_directories_settle present, make_directory_settle known]
          have settled : (catalog.settle path).Holds (tree.settle path) := by
            rw [Catalog.settle, Tree.settle]
            cases above : parent? path with
            | none => exact holds
            | some parent => exact ih parent.length (length ▸ length_parent_lt above) parent rfl
          exact settled.open_list (closed.settle_missing present)

theorem settle (holds : catalog.Holds tree) (closed : tree.Closed) (path : Text) :
    (catalog.settle path).Holds (tree.settle path) := by
  rw [Catalog.settle, Tree.settle]
  cases parent? path with
  | none => exact holds
  | some parent => exact holds.make_directory closed parent

theorem add_directory (holds : catalog.Holds tree) (closed : tree.Closed) (path : Text) :
    (catalog.addDirectory path).Holds (tree.addDirectory path) := by
  rw [addDirectory, Tree.addDirectory, holds.resolve_eq]
  exact holds.make_directory closed _

theorem add_file (holds : catalog.Holds tree) (closed : tree.Closed) (path : Text) :
    (catalog.addFile path).Holds (tree.addFile path) := by
  rw [addFile, holds.resolve_eq, holds.has_eq]
  cases present : tree.has (tree.resolve path) with
  | true =>
      rw [Tree.add_file_of_has present]
      exact holds
  | false =>
      rw [Tree.add_file_settle present]
      exact (holds.settle closed _).keep_file _

/-- A change does to a catalog what it does to the tree. -/
theorem change (holds : catalog.Holds tree) (closed : tree.Closed) (change : Change) :
    (catalog.change change).Holds (tree.change change) := by
  cases change with
  | file path => exact holds.add_file closed path
  | directory path => exact holds.add_directory closed path
  | enter path =>
      have entered := holds.add_directory closed (tree.resolve path)
      rw [Catalog.change, Tree.change, Catalog.enter, Tree.enter, holds.resolve_eq]
      exact ⟨rfl, entered.unreadable, entered.files, entered.contents⟩
  | forbid path =>
      refine ⟨holds.workingDirectory, ?_, holds.files, holds.contents⟩
      rw [Catalog.change, Catalog.forbid, Tree.change, Tree.forbid, holds.unreadable,
        holds.resolve_eq]

theorem empty : Holds {} {} where
  workingDirectory := rfl
  unreadable := rfl
  files _ := by simp [hasFile, Tree.hasFile]
  contents path := by
    by_cases root : path = ['/']
    · subst root
      rfl
    · have absent : Tree.hasDirectory {} path = false := by
        simp [Tree.hasDirectory, Tree.children, parent?, root]
      simp [root, absent]

theorem after (history : List Change) :
    (({} : Catalog).after history).Holds (({} : Tree).after history) := by
  induction history using List.reverseRecOn with
  | nil => exact empty
  | append_singleton history change ih =>
      rw [Tree.after_append, Catalog.after, List.foldl_append]
      exact ih.change (Tree.grown_after history).closed change

theorem filesystem_eq (holds : catalog.Holds tree) : catalog.filesystem = tree.filesystem := by
  have resolved : catalog.resolve = tree.resolve := funext holds.resolve_eq
  have files : catalog.hasFile = tree.hasFile := funext holds.files
  have directories : catalog.hasDirectory = tree.hasDirectory := funext holds.has_directory_eq
  have list : catalog.list = tree.list := by
    funext keep path
    rw [Catalog.list, Tree.list, resolved, holds.unreadable, holds.listed_eq]
  rw [filesystem, Tree.filesystem, list, resolved, files, directories, holds.workingDirectory]
  rfl

theorem contents_eq_some (holds : catalog.Holds tree) {directory : Text} {listed : List Text}
    (contents : catalog.contents directory = some listed) :
    listed = tree.paths.filter (parent? · == some directory) := by
  rw [holds.contents] at contents
  split at contents
  · rw [Option.some.injEq, Tree.children_paths] at contents
    exact contents.symm
  · cases contents

end Holds

/-- Whether the lists of a catalog are in order, given the paths that were created in it. -/
structure Keeps (catalog : Catalog) (created : List Text) : Prop where
  entries : ∀ path, catalog.has path = true ↔ path ∈ created
  /-- All but the root are listed once, for the directory above them, and for no other. -/
  listed : ∀ path ∈ created, path ≠ ['/'] → ∃ parent siblings,
    parent? path = some parent ∧ catalog.contents parent = some siblings ∧ siblings.count path = 1 ∧
      ∀ other others, catalog.contents other = some others → path ∈ others → other = parent
  held : ∀ directory children, catalog.contents directory = some children →
    ∀ child ∈ children, catalog.has child = true

theorem Holds.keeps {catalog : Catalog} {tree : Tree} (holds : catalog.Holds tree)
    (grown : tree.Grown) :
    catalog.Keeps tree.paths where
  entries path := by rw [holds.has_eq, grown.closed.has_iff, Tree.has_entry_iff]
  listed := by
    intro path member below
    rcases (grown.entries path member).exists_parent below with ⟨parent, above, -⟩
    have directory := Tree.has_directory_of_child ((Tree.has_entry_iff tree path).mpr member) above
    have contents := holds.contents parent
    rw [directory, if_pos rfl, Tree.children_paths] at contents
    refine ⟨parent, _, above, contents, ?_, ?_⟩
    · apply List.count_eq_one_of_mem (grown.distinct.filter _)
      exact List.mem_filter.mpr ⟨member, beq_iff_eq.mpr above⟩
    · intro other others listed inside
      rw [holds.contents_eq_some listed, List.mem_filter, beq_iff_eq, above] at inside
      exact (Option.some.inj inside.2).symm
  held := by
    intro directory children listed child inside
    rw [holds.contents_eq_some listed] at inside
    rw [holds.has_eq, grown.closed.has_iff, Tree.has_entry_iff]
    exact (List.mem_filter.mp inside).1

end Catalog

/-- Whether a filesystem lists what it says is there, given the paths that were created in it. -/
structure Filesystem.Lists (filesystem : Filesystem) (unreadable created : List Text) : Prop where
  kinds : ∀ path, startsAtRoot path = true → normalize path ≠ ['/'] →
    ∃ parent, parent? (normalize path) = some parent ∧ (parent ∉ unreadable →
      (∃ directories, (filesystem.directories parent).outcome = .ok directories ∧
        (filesystem.isDirectory path = true ↔ normalize path ∈ directories)) ∧
      ∃ files, (filesystem.files parent).outcome = .ok files ∧
        (filesystem.isFile path = true ↔ normalize path ∈ files))
  entries : ∀ directory, startsAtRoot directory = true → normalize directory ∉ unreadable →
    (filesystem.entries directory).outcome =
      .ok (created.filter (parent? · == some (normalize directory)))

namespace Tree

variable {tree : Tree}

theorem list_normalize (tree : Tree) (keep : Text → Bool) {directory : Text}
    (rooted : startsAtRoot directory = true) :
    tree.list keep directory = tree.list keep (normalize directory) := by
  rw [list, list, Tree.resolve, Tree.resolve, (is_place_normalize rooted).resolve_eq,
    resolve_of_rooted _ rooted]

theorem exists_listed_iff (tree : Tree) {keep : Text → Bool} {parent child : Text}
    (place : IsPlace parent) (above : parent? child = some parent)
    (present : keep child = true → tree.HasEntry child) (readable : parent ∉ tree.unreadable) :
    ∃ listed,
      (tree.list keep parent).outcome = .ok listed ∧ (keep child = true ↔ child ∈ listed) := by
  refine ⟨_, (list_outcome_eq_ok_iff tree keep place _).mpr ⟨readable, rfl⟩, ?_⟩
  rw [mem_below_iff, IsChild]
  constructor
  · intro kept
    exact ⟨⟨present kept, above⟩, kept⟩
  · exact And.right

theorem Closed.lists (closed : tree.Closed) : tree.filesystem.Lists tree.unreadable tree.paths where
  kinds := by
    intro path rooted below
    have resolved : tree.resolve path = normalize path := resolve_of_rooted _ rooted
    rcases (is_place_normalize rooted).is_resolved.exists_parent below with ⟨parent, above, place⟩
    refine ⟨parent, above, fun readable => ?_⟩
    rw [filesystem]
    dsimp only
    rw [resolved]
    constructor
    · exact tree.exists_listed_iff place above closed.entry_of_has_directory readable
    · apply tree.exists_listed_iff place above _ readable
      intro file
      exact ⟨_, List.contains_iff_mem.mp file, rfl⟩
  entries := by
    intro directory rooted readable
    rw [filesystem]
    dsimp only
    rw [list_normalize tree _ rooted, list_outcome_eq_ok_iff tree _ (is_place_normalize rooted)]
    refine ⟨readable, ?_⟩
    rw [below, children_paths, List.filter_eq_self]
    exact fun _ _ => rfl

end Tree

/--
However a tree was built and changed, its catalog keeps just the paths that were created: the root,
what was added and what is above that, each on one list, in order. It answers as the tree does, and
in its answers lists and single paths agree.
-/
theorem Catalog.keeps_history (paths : List Text) (changes : List Change) :
    let added := additions ['/'] (paths.map Change.ofPath ++ changes)
    let catalog := (ofPaths paths).after changes
    (∀ path, path ∈ created added ↔ path = ['/'] ∨ ∃ given ∈ added, path ∈ lineage given) ∧
    (created added).Nodup ∧ catalog.Keeps (created added) ∧
    catalog.filesystem = ((Tree.ofPaths paths).after changes).filesystem ∧
    catalog.filesystem.Lists catalog.unreadable (created added) := by
  intro added catalog
  have holds : catalog.Holds ((Tree.ofPaths paths).after changes) := by
    have whole := Holds.after (paths.map Change.ofPath ++ changes)
    rwa [← Tree.of_paths_after, Catalog.after, List.foldl_append] at whole
  have history : ((Tree.ofPaths paths).after changes).paths = created added := by
    rw [Tree.of_paths_after, Tree.paths_after]
  have grown := Tree.of_paths_after_grown paths changes
  refine ⟨fun path => mem_created_iff, nodup_created added, ?_, holds.filesystem_eq, ?_⟩
  · rw [← history]
    exact holds.keeps grown
  · rw [holds.filesystem_eq, holds.unreadable, ← history]
    exact grown.closed.lists

end PathGlob
