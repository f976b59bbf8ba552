import PathGlob.Proofs.Tree.Walks
import PathGlob.Proofs.Walk.Reordering

/-!
# Listings of trees in another order

The entries of a directory can be told by one listing or by two, its files, then its directories.
Every child is one of the two, and what is both is told twice, so either way the filesystem has the
same contents and walks find the same.
-/
namespace PathGlob

set_option autoImplicit false

theorem Listing.followed_by_of_failed {first : Listing} {error : ListingError}
    (failed : first.outcome = .error error) (second : Listing) :
    (first.followedBy second).outcome = .error error := by
  rw [followedBy, failed]
  exact failed

theorem Listing.followed_by_of_listed {first second : Listing} {paths others : List Text}
    (listed : first.outcome = .ok paths) (otherListed : second.outcome = .ok others) :
    (first.followedBy second).outcome = .ok (paths ++ others) := by
  rw [followedBy, listed]
  exact congrArg (Except.map (paths ++ ·)) otherListed

namespace Tree

theorem list_outcome (tree : Tree) (keep : Text → Bool) (directory : Text) :
    (tree.list keep directory).outcome =
      if tree.unreadable.contains (tree.resolve directory) then
        .error (.unreadable (tree.resolve directory))
      else .ok (tree.below keep (tree.resolve directory)) := rfl

/-- A tree tells its entries by its files, then its directories, as it does by one listing. -/
theorem same_contents_files_then_directories (tree : Tree) :
    tree.filesystem.SameContents
      { tree.filesystem with entries := tree.filesystem.filesThenDirectories } where
  root := rfl
  workingDirectory := rfl
  isFile _ := rfl
  isDirectory _ := rfl
  directories directory := .refl _
  entries := by
    intro directory
    have whole := tree.list_outcome (fun _ => true) directory
    have files := tree.list_outcome tree.hasFile directory
    have directories := tree.list_outcome tree.hasDirectory directory
    by_cases unreadable : tree.unreadable.contains (tree.resolve directory) = true
    · rw [if_pos unreadable] at whole files
      exact .failed whole (Listing.followed_by_of_failed files _)
    · rw [if_neg unreadable] at whole files directories
      apply Listing.SamePaths.listed whole (Listing.followed_by_of_listed files directories)
      intro child
      rw [List.mem_append, mem_below_iff, mem_below_iff, mem_below_iff, ← and_or_left]
      exact and_congr_right fun isChild => iff_of_true rfl (file_or_directory_of_entry isChild.1)

end Tree

namespace Walk

/--
The order and the repetitions in which directories are listed make no difference to what a complete
walk finds and to how often a listing fails, for every two filesystems that otherwise answer alike
and hold the walk in a finite list of directories. So it is for trees in memory, whatever is
unreadable in them, whether their entries are told by one listing or by two.
-/
theorem findings_independent_of_order :
    (∀ (left right : Filesystem) (pattern : Pattern) (start : Text) (inside : List Text),
      left.SameContents right → left.Territory pattern start inside →
      FindAlike left right pattern start) ∧
    ∀ (paths unreadable : List Text) (pattern : Pattern), pattern.Built → ∀ start : Text,
      let filesystem := { Tree.ofPaths paths with unreadable }.filesystem
      FindAlike filesystem
        { filesystem with entries := filesystem.filesThenDirectories } pattern start := by
  constructor
  · intro left right pattern start inside same territory
    exact find_alike same territory
  · intro paths unreadable pattern built start
    have shape := (Tree.of_paths_shape paths).with_unreadable unreadable
    exact find_alike (Tree.same_contents_files_then_directories _)
      (shape.territory built.proper.parsed start)

def toldAs (entries : List Text) : Filesystem where
  root := ['/']
  workingDirectory := ['/']
  isFile path := path == ['/', 'b']
  isDirectory path := path == ['/'] || path == ['/', 'a']
  files directory :=
    if directory = ['/'] then ⟨[directory], .ok [['/', 'b']]⟩ else .failed (.unreadable directory)
  directories directory :=
    if directory = ['/'] then ⟨[directory], .ok [['/', 'a']]⟩ else .failed (.unreadable directory)
  entries directory :=
    if directory = ['/'] then ⟨[directory], .ok entries⟩ else .failed (.unreadable directory)

/-- The pattern `**` where `/b` is told before `/a`, and `/a` twice. -/
theorem findings_independent_of_order_repeated :
    FindAlike (toldAs [['/', 'a'], ['/', 'b']]) (toldAs [['/', 'b'], ['/', 'a'], ['/', 'a']])
      ⟨[⟨⟨false, [.globstar]⟩, .sensitive⟩]⟩ ['/'] := by
  have same : (toldAs [['/', 'a'], ['/', 'b']]).SameContents
      (toldAs [['/', 'b'], ['/', 'a'], ['/', 'a']]) := by
    refine ⟨rfl, rfl, fun _ => rfl, fun _ => rfl, fun directory => ?_, fun _ => .refl _⟩
    simp only [toldAs]
    split
    · exact .listed rfl rfl (by simp [or_comm])
    · exact .refl _
  have only : ∀ path, (toldAs [['/', 'a'], ['/', 'b']]).isDirectory path = true →
      path ∈ [['/'], ['/', 'a']] := by
    intro path isDirectory
    simpa [toldAs] using isDirectory
  have listed : ∀ directory paths,
      ((toldAs [['/', 'a'], ['/', 'b']]).directories directory).outcome = .ok paths →
        paths ⊆ [['/'], ['/', 'a']] := by
    intro directory paths told
    simp only [toldAs] at told
    split at told
    · cases told
      decide
    · cases told
  exact findings_independent_of_order.1 _ _ _ _ _ same
    (Filesystem.territory_of_directories only listed _ _)

end Walk

end PathGlob
