import Mathlib.Data.List.Induction
import PathGlob.Proofs.Path.Lineage
import PathGlob.Tree

/-!
# The shape of trees built from paths

A tree built path by path has the root, names all its entries by normalized rooted paths, and holds
the directory above every entry. Making directories goes up a path until something is there and then
comes down again, so each directory is made below one that exists.
-/
namespace PathGlob.Tree

set_option autoImplicit false

open PathGlob.Path

def HasEntry (tree : Tree) (path : Text) : Prop := ∃ entry ∈ tree.entries, entry.path = path

structure Shape (tree : Tree) : Prop where
  workingDirectory : tree.workingDirectory = ['/']
  root : tree.HasEntry ['/']
  places : ∀ path, tree.HasEntry path → IsPlace path
  above : ∀ path, tree.HasEntry path → ∀ parent, parent? path = some parent → tree.HasEntry parent

def Closed (tree : Tree) : Prop :=
  ∀ path, tree.HasEntry path → ∀ parent, parent? path = some parent → tree.HasEntry parent

theorem mem_children_iff (tree : Tree) (directory child : Text) :
    child ∈ (tree.children directory).map Entry.path ↔
      tree.HasEntry child ∧ parent? child = some directory := by
  rw [children, HasEntry, List.mem_map]
  constructor
  · intro listed
    obtain ⟨entry, member, rfl⟩ := listed
    obtain ⟨among, below⟩ := List.mem_filter.mp member
    exact ⟨⟨entry, among, rfl⟩, beq_iff_eq.mp below⟩
  · intro child
    obtain ⟨⟨entry, among, rfl⟩, below⟩ := child
    exact ⟨entry, List.mem_filter.mpr ⟨among, beq_iff_eq.mpr below⟩, rfl⟩

theorem has_directory_of_child {tree : Tree} {directory child : Text} (entry : tree.HasEntry child)
    (below : parent? child = some directory) : tree.hasDirectory directory = true := by
  have listed := (mem_children_iff tree directory child).mpr ⟨entry, below⟩
  rw [hasDirectory, Bool.or_eq_true]
  right
  cases children : tree.children directory with
  | nil => simp [children] at listed
  | cons => rfl

theorem Closed.entry_of_has_directory {tree : Tree} (closed : tree.Closed) {path : Text}
    (directory : tree.hasDirectory path = true) : tree.HasEntry path := by
  rw [hasDirectory, Bool.or_eq_true] at directory
  rcases directory with made | above
  · exact ⟨_, List.contains_iff_mem.mp made, rfl⟩
  · cases children : tree.children path with
    | nil => simp [children] at above
    | cons child rest =>
        have listed : child.path ∈ (tree.children path).map Entry.path := by simp [children]
        obtain ⟨entry, below⟩ := (mem_children_iff tree path child.path).mp listed
        exact closed child.path entry path below

theorem Shape.entry_of_has_directory {tree : Tree} (shape : tree.Shape) {path : Text}
    (directory : tree.hasDirectory path = true) : tree.HasEntry path :=
  Closed.entry_of_has_directory shape.above directory

theorem file_or_directory_of_entry {tree : Tree} {path : Text} (entry : tree.HasEntry path) :
    tree.hasFile path = true ∨ tree.hasDirectory path = true := by
  rcases entry with ⟨⟨place, kind⟩, member, rfl⟩
  cases kind with
  | file => exact .inl (List.contains_iff_mem.mpr member)
  | directory =>
      right
      rw [hasDirectory, List.contains_iff_mem.mpr member]
      rfl

theorem Closed.has_iff {tree : Tree} (closed : tree.Closed) (path : Text) :
    tree.has path = true ↔ tree.HasEntry path := by
  rw [has, Bool.or_eq_true]
  constructor
  · intro either
    rcases either with file | directory
    · exact ⟨_, List.contains_iff_mem.mp file, rfl⟩
    · exact closed.entry_of_has_directory directory
  · exact file_or_directory_of_entry

theorem Shape.has_iff {tree : Tree} (shape : tree.Shape) (path : Text) :
    tree.has path = true ↔ tree.HasEntry path := Closed.has_iff shape.above path

theorem has_entry_append_iff (tree : Tree) (entry : Entry) (path : Text) :
    (tree.append entry).HasEntry path ↔ tree.HasEntry path ∨ entry.path = path := by
  simp [HasEntry, append, or_and_right, exists_or]

theorem has_file_append (tree : Tree) (entry : Entry) (path : Text) :
    (tree.append entry).hasFile path = (tree.hasFile path || decide (⟨path, .file⟩ = entry)) := by
  simp [hasFile, append]

theorem children_append (tree : Tree) (entry : Entry) (directory : Text) :
    (tree.append entry).children directory =
      tree.children directory ++ if parent? entry.path = some directory then [entry] else [] := by
  rw [children, append, List.filter_append, children]
  by_cases below : parent? entry.path = some directory <;> simp [below]

theorem has_directory_append (tree : Tree) (entry : Entry) (path : Text) :
    (tree.append entry).hasDirectory path =
      (tree.hasDirectory path || decide (⟨path, .directory⟩ = entry) ||
        decide (parent? entry.path = some path)) := by
  rw [hasDirectory, children_append, hasDirectory]
  by_cases below : parent? entry.path = some path
  · simp [below]
  · simp [below, append, Bool.or_right_comm]

theorem children_of_no_directory {tree : Tree} {path : Text}
    (none : tree.hasDirectory path = false) :
    tree.children path = [] := by
  rw [hasDirectory, Bool.or_eq_false_iff] at none
  simpa using none.2

theorem Shape.append {tree : Tree} (shape : tree.Shape) {path : Text} (kind : EntryKind)
    (place : IsPlace path)
    (above : ∀ parent, parent? path = some parent → tree.HasEntry parent) :
    (tree.append ⟨path, kind⟩).Shape where
  workingDirectory := shape.workingDirectory
  root := (has_entry_append_iff _ _ _).mpr (.inl shape.root)
  places := by
    intro other entry
    rcases (has_entry_append_iff _ _ _).mp entry with old | rfl
    · exact shape.places other old
    · exact place
  above := by
    intro other entry parent below
    apply (has_entry_append_iff _ _ _).mpr
    left
    rcases (has_entry_append_iff _ _ _).mp entry with old | rfl
    · exact shape.above other old parent below
    · exact above parent below

theorem make_directories_of_has {tree : Tree} {path : Text} (present : tree.has path = true) :
    tree.makeDirectories path = tree := by
  have starts : ∃ rest, lineage path = path :: rest := by
    rw [lineage]
    split <;> exact ⟨_, rfl⟩
  obtain ⟨rest, starts⟩ := starts
  rw [makeDirectories, starts, List.takeWhile_cons_of_neg (by simp [present])]
  rfl

def settle (tree : Tree) (path : Text) : Tree :=
  match parent? path with
  | some parent => tree.makeDirectories parent
  | none => tree

theorem make_directories_settle {tree : Tree} {path : Text} (missing : tree.has path = false) :
    tree.makeDirectories path = (tree.settle path).append ⟨path, .directory⟩ := by
  rw [makeDirectories, settle]
  cases above : parent? path with
  | none =>
      rw [lineage_of_none above, List.takeWhile_cons_of_pos (by simp [missing])]
      rfl
  | some parent =>
      rw [lineage_of_some above, List.takeWhile_cons_of_pos (by simp [missing]), List.reverse_cons,
        List.foldl_append]
      rfl

theorem make_directories_of_missing {tree : Tree} (names : List Text) {name : Text}
    (named : IsName name) (missing : tree.has (absolute (names ++ [name])) = false) :
    tree.makeDirectories (absolute (names ++ [name])) =
      (tree.makeDirectories (absolute names)).append ⟨absolute (names ++ [name]), .directory⟩ := by
  rw [make_directories_settle missing, settle, parent_absolute names named]

theorem add_file_of_has {tree : Tree} {path : Text}
    (present : tree.has (tree.resolve path) = true) :
    tree.addFile path = tree := if_pos present

theorem add_file_settle {tree : Tree} {path : Text}
    (missing : tree.has (tree.resolve path) = false) :
    tree.addFile path = (tree.settle (tree.resolve path)).append ⟨tree.resolve path, .file⟩ :=
  if_neg (by simp [missing])

/-- Making directories only adds directories, those that are missing, the topmost first. -/
theorem make_directories_eq (tree : Tree) (path : Text) :
    tree.makeDirectories path =
      { tree with
        entries := tree.entries ++
          ((lineage path).takeWhile (!tree.has ·)).reverse.map (⟨·, .directory⟩) } := by
  rw [makeDirectories]
  generalize ((lineage path).takeWhile (!tree.has ·)).reverse = missing
  induction missing generalizing tree with
  | nil => simp
  | cons path missing ih =>
      rw [List.foldl_cons, ih, append]
      simp

theorem Shape.make_directories {tree : Tree} (shape : tree.Shape) {names : List Text}
    (named : ∀ name ∈ names, IsName name) :
    (tree.makeDirectories (absolute names)).Shape ∧
      (tree.makeDirectories (absolute names)).HasEntry (absolute names) := by
  -- On the names from the end: what is missing is made below what was made for the names before it.
  induction names using List.reverseRecOn with
  | nil =>
      have present : tree.has (absolute []) = true := (shape.has_iff ['/']).mpr shape.root
      rw [make_directories_of_has present]
      exact ⟨shape, shape.root⟩
  | append_singleton names name ih =>
      cases present : tree.has (absolute (names ++ [name])) with
      | true =>
          rw [make_directories_of_has present]
          exact ⟨shape, (shape.has_iff _).mp present⟩
      | false =>
          have last := named name (by simp)
          obtain ⟨above, made⟩ := ih fun other member => named other (by simp [member])
          rw [make_directories_of_missing names last present]
          refine ⟨above.append .directory ⟨_, named, rfl⟩ ?_,
            (has_entry_append_iff _ _ _).mpr (.inr rfl)⟩
          intro parent below
          rw [parent_absolute names last] at below
          cases below
          exact made

theorem Shape.resolve_eq {tree : Tree} (shape : tree.Shape) (path : Text) :
    tree.resolve path = absolute (segments path) := by
  rw [Tree.resolve, shape.workingDirectory, resolve_root]

theorem Shape.add_directory {tree : Tree} (shape : tree.Shape) (path : Text) :
    (tree.addDirectory path).Shape := by
  rw [addDirectory, shape.resolve_eq]
  exact (shape.make_directories fun _ member => is_name_of_mem_segments member).1

theorem Shape.add_file {tree : Tree} (shape : tree.Shape) (path : Text) :
    (tree.addFile path).Shape := by
  rw [addFile, shape.resolve_eq]
  split
  · exact shape
  · have named : ∀ name ∈ segments path, IsName name := fun _ member =>
      is_name_of_mem_segments member
    rcases List.eq_nil_or_concat' (segments path) with none | ⟨names, name, same⟩
    · rw [none]
      apply shape.append .file is_place_root
      intro parent below
      cases below
    · rw [same] at named ⊢
      have last := named name (by simp)
      obtain ⟨above, made⟩ :=
        shape.make_directories fun other member => named other (List.mem_append_left [name] member)
      rw [parent_absolute names last]
      apply above.append .file ⟨_, named, rfl⟩
      intro parent below
      rw [parent_absolute names last] at below
      cases below
      exact made

theorem empty_shape : Shape {} where
  workingDirectory := rfl
  root := ⟨_, List.mem_singleton_self _, rfl⟩
  places := by
    intro path entry
    obtain ⟨entry, member, rfl⟩ := entry
    rw [List.mem_singleton.mp member]
    exact is_place_root
  above := by
    intro path entry parent below
    obtain ⟨entry, member, rfl⟩ := entry
    rw [List.mem_singleton.mp member] at below
    cases below

theorem add_all_shape {tree : Tree} (shape : tree.Shape) (paths : List Text) :
    (paths.foldl add tree).Shape := by
  induction paths generalizing tree with
  | nil => exact shape
  | cons path paths ih =>
      rw [List.foldl_cons, add]
      split
      · exact ih (shape.add_directory path)
      · exact ih (shape.add_file path)

theorem of_paths_shape (paths : List Text) : (ofPaths paths).Shape :=
  add_all_shape empty_shape paths

theorem Shape.entry_of_make_directories {tree : Tree} (shape : tree.Shape) {names : List Text}
    (named : ∀ name ∈ names, IsName name) {path : Text}
    (entry : (tree.makeDirectories (absolute names)).HasEntry path) :
    tree.HasEntry path ∨ ∃ front, front <+: names ∧ path = absolute front := by
  induction names using List.reverseRecOn with
  | nil =>
      have present : tree.has (absolute []) = true := (shape.has_iff ['/']).mpr shape.root
      rw [make_directories_of_has present] at entry
      exact .inl entry
  | append_singleton names name ih =>
      cases present : tree.has (absolute (names ++ [name])) with
      | true =>
          rw [make_directories_of_has present] at entry
          exact .inl entry
      | false =>
          rw [make_directories_of_missing names (named name (by simp)) present,
            has_entry_append_iff] at entry
          rcases entry with earlier | rfl
          · refine (ih (fun other member => named other (by simp [member])) earlier).imp_right
              fun made => ?_
            obtain ⟨front, within, same⟩ := made
            exact ⟨front, within.trans (List.prefix_append names [name]), same⟩
          · exact .inr ⟨_, List.prefix_refl _, rfl⟩

theorem Shape.entry_of_add {tree : Tree} (shape : tree.Shape) (given : Text) {path : Text}
    (entry : (tree.add given).HasEntry path) :
    tree.HasEntry path ∨ ∃ front, front <+: segments given ∧ path = absolute front := by
  have named : ∀ name ∈ segments given, IsName name :=
    fun _ member => is_name_of_mem_segments member
  rw [add] at entry
  split at entry
  · rw [addDirectory, shape.resolve_eq] at entry
    exact shape.entry_of_make_directories named entry
  · rw [addFile, shape.resolve_eq] at entry
    split at entry
    · exact .inl entry
    · rcases (has_entry_append_iff _ _ _).mp entry with earlier | rfl
      · rcases List.eq_nil_or_concat' (segments given) with none | ⟨names, name, same⟩
        · rw [none] at earlier
          exact .inl earlier
        · rw [same] at named earlier ⊢
          rw [parent_absolute names (named name (by simp))] at earlier
          refine (shape.entry_of_make_directories
            (fun other member => named other (by simp [member]))
            earlier).imp_right fun made => ?_
          obtain ⟨front, within, same⟩ := made
          exact ⟨front, within.trans (List.prefix_append names [name]), same⟩
      · exact .inr ⟨_, List.prefix_refl _, rfl⟩

theorem entry_of_paths {paths : List Text} {path : Text} (entry : (ofPaths paths).HasEntry path) :
    path = ['/'] ∨ ∃ given ∈ paths, ∃ front, front <+: segments given ∧ path = absolute front := by
  induction paths using List.reverseRecOn with
  | nil =>
      obtain ⟨root, member, rfl⟩ := entry
      rw [List.mem_singleton.mp member]
      exact .inl rfl
  | append_singleton paths given ih =>
      have added : ofPaths (paths ++ [given]) = (ofPaths paths).add given := List.foldl_append ..
      rw [added] at entry
      rcases (of_paths_shape paths).entry_of_add given entry with earlier | made
      · refine (ih earlier).imp_right fun made => ?_
        obtain ⟨other, member, made⟩ := made
        exact ⟨other, List.mem_append_left _ member, made⟩
      · exact .inr ⟨given, by simp, made⟩

theorem make_directories_unreadable (tree : Tree) (path : Text) :
    (tree.makeDirectories path).unreadable = tree.unreadable := by
  rw [make_directories_eq]

theorem add_unreadable (tree : Tree) (path : Text) :
    (tree.add path).unreadable = tree.unreadable := by
  rw [add, addDirectory, addFile]
  dsimp only
  split
  · exact make_directories_unreadable tree _
  · split
    · rfl
    · cases parent? (tree.resolve path) with
      | none => rfl
      | some parent => exact make_directories_unreadable tree parent

theorem of_paths_unreadable (paths : List Text) : (ofPaths paths).unreadable = [] := by
  have kept : ∀ tree : Tree, (paths.foldl add tree).unreadable = tree.unreadable := by
    induction paths with
    | nil => exact fun _ => rfl
    | cons path paths ih => exact fun tree => (ih (tree.add path)).trans (add_unreadable tree path)
  exact kept {}

theorem Shape.with_unreadable {tree : Tree} (shape : tree.Shape) (unreadable : List Text) :
    { tree with unreadable }.Shape where
  workingDirectory := shape.workingDirectory
  root := shape.root
  places := shape.places
  above := shape.above

end PathGlob.Tree
