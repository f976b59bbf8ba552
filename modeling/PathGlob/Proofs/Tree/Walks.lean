import PathGlob.Proofs.Tree.Reach
import PathGlob.Proofs.Walk.Exhaustion

/-!
# Walks through trees

A walk through a tree in memory hands out each entry that a branch reaches, selects and matches, and
one failure for each branch and each stop where an unreadable directory would have to be listed.
This holds for every tree built from paths, whichever directories are unreadable: the entries and
the start are a territory, so the walk comes to its end, and the stops that it covers are those that
the entries of the tree lead to.
-/
namespace PathGlob.Tree

set_option autoImplicit false

open PathGlob.Path

variable {tree : Tree} {pattern : Pattern}

def base (tree : Tree) (start : Text) (branch : Branch) : Text :=
  branch.base tree.filesystem (Walk.startIn tree.filesystem start)

theorem Shape.normalize_working_directory (shape : tree.Shape) :
    normalize tree.filesystem.workingDirectory = ['/'] := by
  rw [filesystem, shape.workingDirectory]
  rfl

theorem Shape.place_start (shape : tree.Shape) (start : Text) :
    IsPlace (Walk.startIn tree.filesystem start) := by
  rw [Walk.startIn, shape.normalize_working_directory]
  split
  · exact is_place_root
  · rw [resolve_root]
    exact is_place_segments start

theorem Shape.place_base (shape : tree.Shape) (start : Text) (branch : Branch) :
    IsPlace (tree.base start branch) := by
  rw [base, Branch.base]
  split
  · exact is_place_root
  · exact shape.place_start start

theorem base_root (tree : Tree) (branch : Branch) : tree.base ['/'] branch = ['/'] := by
  rw [Tree.base, Branch.base]
  split
  · rfl
  · exact is_place_root.resolve_eq (normalize tree.filesystem.workingDirectory)

def places (tree : Tree) (start : Text) : List Text :=
  Walk.startIn tree.filesystem start :: ['/'] :: tree.entries.map Entry.path

theorem mem_places_of_entry {start path : Text} (entry : tree.HasEntry path) :
    path ∈ tree.places start := by
  obtain ⟨made, inTree, rfl⟩ := entry
  exact List.mem_cons_of_mem _ (List.mem_cons_of_mem _ (List.mem_map_of_mem inTree))

theorem Shape.place_of_mem_places (shape : tree.Shape) {start path : Text}
    (member : path ∈ tree.places start) : IsPlace path := by
  rcases List.mem_cons.mp member with rfl | others
  · exact shape.place_start start
  · rcases List.mem_cons.mp others with rfl | entry
    · exact is_place_root
    · obtain ⟨made, inTree, rfl⟩ := List.mem_map.mp entry
      exact shape.places _ ⟨made, inTree, rfl⟩

/-- No walk leaves the places of its tree. -/
theorem Shape.territory (shape : tree.Shape) (parsed : ∀ branch ∈ pattern.branches, branch.Parsed)
    (start : Text) : tree.filesystem.Territory pattern start (tree.places start) where
  bases := by
    intro branch _
    rw [Branch.base]
    split
    · exact List.mem_cons_of_mem _ List.mem_cons_self
    · exact List.mem_cons_self
  listed := by
    intro directory inside directories listed child member
    have place := shape.place_of_mem_places inside
    obtain ⟨-, rfl⟩ := (list_outcome_eq_ok_iff tree _ place _).mp listed
    obtain ⟨isChild, -⟩ := (mem_below_iff tree _ _ child).mp member
    exact mem_places_of_entry isChild.1
  lookedUp := by
    intro branch member name selected directory inside led
    have place := shape.place_of_mem_places inside
    have named := (parsed branch member).is_name_of_exactly selected
    have made := (is_directory_join_iff place named).mp led
    exact mem_places_of_entry (shape.entry_of_has_directory made)

/-- Whether a branch matches an entry that it selects at a stop it reaches. -/
def Finds (tree : Tree) (branch : Branch) (start found : Text) : Prop :=
  (∃ stop, tree.Reaches branch (tree.base start branch) stop ∧ tree.Selects branch stop found) ∧
    branch.matchesPath found = true

/-- Whether a branch reaches a stop where it has to list an unreadable directory. -/
def FailsAt (tree : Tree) (branch : Branch) (start : Text) (stop : Stop) : Prop :=
  tree.Reaches branch (tree.base start branch) stop ∧ stop.directory ∈ tree.unreadable ∧
    ∃ selector, branch.selectors[stop.index]? = some selector ∧ selector.Lists

/--
Whether the items of a walk are what can be reached: as paths the entries that some branch finds,
each once, and as many failures as there are branches with a stop where they fail.
-/
structure Exhausts (tree : Tree) (pattern : Pattern) (start : Text)
    (items : List (Finding × Walk)) : Prop where
  distinct : (items.filterMap (·.1.path?)).Nodup
  paths : ∀ found, found ∈ items.filterMap (·.1.path?) ↔
    ∃ branch ∈ pattern.branches, tree.Finds branch start found
  failures : ∃ failing : List (Nat × Stop), failing.Nodup ∧
    (∀ number stop, (number, stop) ∈ failing ↔
      ∃ branch, pattern.branches[number]? = some branch ∧ tree.FailsAt branch start stop) ∧
    (items.filterMap (·.1.failure?)).length = failing.length

variable {branch : Branch} {start : Text}

theorem Shape.finds_iff (shape : tree.Shape) (parsed : branch.Parsed) (found : Text) :
    branch.Finds tree.filesystem (Walk.startIn tree.filesystem start) found ↔
      tree.Finds branch start found := by
  have named : ∀ name, .exactly name ∈ branch.selectors → IsName name := fun _ =>
    parsed.is_name_of_exactly
  have place := shape.place_base start branch
  rw [Branch.Finds, Finds]
  apply and_congr_left'
  apply exists_congr
  intro stop
  rw [reaches_iff shape place named]
  apply and_congr_right
  intro reaches
  exact mem_candidates_iff (shape.place_of_reaches place named reaches) named found

theorem Shape.fails_at_iff (shape : tree.Shape) (parsed : branch.Parsed) (stop : Stop) :
    branch.FailsAt tree.filesystem (Walk.startIn tree.filesystem start) stop ↔
      tree.FailsAt branch start stop := by
  have named : ∀ name, .exactly name ∈ branch.selectors → IsName name := fun _ =>
    parsed.is_name_of_exactly
  have place := shape.place_base start branch
  rw [Branch.FailsAt, FailsAt, reaches_iff shape place named]
  apply and_congr_right
  intro reaches
  exact failure_iff (shape.place_of_reaches place named reaches)

theorem Shape.walk_exhausts (shape : tree.Shape)
    (parsed : ∀ branch ∈ pattern.branches, branch.Parsed) (start : Text) :
    ∃ items last,
      Step.Drains (Walk.step tree.filesystem)
        (Walk.begin pattern tree.filesystem start) items last ∧
        tree.Exhausts pattern start items := by
  rcases Walk.drains_exhausting (shape.territory parsed start) with ⟨items, last, drains, exhausts⟩
  rcases exhausts.failures with ⟨failing, distinct, fails, count⟩
  refine ⟨items, last, drains, exhausts.distinct, ?_, failing, distinct, ?_, count⟩
  · intro wanted
    rw [exhausts.paths]
    apply exists_congr
    intro branch
    apply and_congr_right
    intro member
    exact shape.finds_iff (parsed branch member) wanted
  · intro number stop
    rw [fails]
    apply exists_congr
    intro branch
    apply and_congr_right
    intro numbered
    exact shape.fails_at_iff (parsed branch (List.mem_of_getElem? numbered)) stop

/--
Every walk of a pattern through a tree built from paths, some of its directories unreadable, comes
to its end. It hands out exactly the entries that can be reached, selected and matched, each once,
and exactly one failure for each branch and reachable stop where an unreadable directory is listed.
-/
theorem walk_of_paths_exhausts (paths unreadable : List Text) {pattern : Pattern}
    (built : pattern.Built) (start : Text) :
    ∃ items last,
      Step.Drains (Walk.step { ofPaths paths with unreadable }.filesystem)
        (Walk.begin pattern { ofPaths paths with unreadable }.filesystem start) items last ∧
      { ofPaths paths with unreadable }.Exhausts pattern start items :=
  ((of_paths_shape paths).with_unreadable unreadable).walk_exhausts built.proper.parsed start

/-- The pattern `**;/a/*` on a tree with the unreadable directory `/a`, which both branches list. -/
theorem walk_of_paths_exhausts_unreadable :
    ∃ pattern,
      Pattern.compile .lenient ['*', '*', ';', '/', 'a', '/', '*'] .sensitive = .ok pattern ∧
      ∃ items last,
        Step.Drains
          (Walk.step { ofPaths [['/', 'a', '/', 'b']] with unreadable := [['/', 'a']] }.filesystem)
          (Walk.begin pattern
            { ofPaths [['/', 'a', '/', 'b']] with unreadable := [['/', 'a']] }.filesystem ['/'])
          items last ∧
        { ofPaths [['/', 'a', '/', 'b']] with unreadable := [['/', 'a']] }.Exhausts pattern ['/']
          items := by
  have compiled : Pattern.compile .lenient ['*', '*', ';', '/', 'a', '/', '*'] .sensitive = .ok
      ⟨[⟨⟨false, [.globstar]⟩, .sensitive⟩,
        ⟨⟨true, [.literal ['a'], .compound [.star]]⟩, .sensitive⟩]⟩ := by decide +kernel
  exact ⟨_, compiled, walk_of_paths_exhausts [['/', 'a', '/', 'b']] [['/', 'a']]
    (.compiled compiled)
    ['/']⟩

end PathGlob.Tree
