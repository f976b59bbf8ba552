import PathGlob.Proofs.Pattern.Built
import PathGlob.Proofs.Tree.Shape
import PathGlob.Proofs.Walk.Extent
import PathGlob.Proofs.Walk.Findings

/-!
# Where a branch gets in a tree

Says of a tree in memory, entry by entry, where the components of a branch lead and which entries
they select, and shows that the stops of a traversal follow just that. The tree is never asked for
anything but its entries, the directories among them and which of these are unreadable.
-/
namespace PathGlob

set_option autoImplicit false

open PathGlob.Path

def Tree.IsChild (tree : Tree) (directory child : Text) : Prop :=
  tree.HasEntry child ∧ parent? child = some directory

def Selector.Lists : Selector → Prop
  | .exactly _ => False
  | .named _ => True
  | .everywhere => True

namespace Tree

/-- Where a stop leads, by the selector of its component. -/
inductive Leads (tree : Tree) (branch : Branch) : Stop → Stop → Prop where
  | literal {stop : Stop} {name : Text}
      (selects : branch.selectors[stop.index]? = some (.exactly name))
      (inner : stop.index + 1 < branch.selectors.length)
      (directory : tree.hasDirectory (join stop.directory name) = true) :
      Leads tree branch stop ⟨join stop.directory name, stop.index + 1⟩
  | named {stop : Stop} {regex : Regex} {child : Text}
      (selects : branch.selectors[stop.index]? = some (.named regex))
      (inner : stop.index + 1 < branch.selectors.length)
      (readable : stop.directory ∉ tree.unreadable) (below : tree.IsChild stop.directory child)
      (directory : tree.hasDirectory child = true) (fits : regex.found (fileName child) = true) :
      Leads tree branch stop ⟨child, stop.index + 1⟩
  | below {stop : Stop} {child : Text}
      (selects : branch.selectors[stop.index]? = some .everywhere)
      (readable : stop.directory ∉ tree.unreadable) (below : tree.IsChild stop.directory child)
      (directory : tree.hasDirectory child = true) : Leads tree branch stop ⟨child, stop.index⟩
  | onward {stop : Stop} (selects : branch.selectors[stop.index]? = some .everywhere)
      (inner : stop.index + 1 < branch.selectors.length)
      (readable : stop.directory ∉ tree.unreadable) :
      Leads tree branch stop ⟨stop.directory, stop.index + 1⟩

inductive Selects (tree : Tree) (branch : Branch) : Stop → Text → Prop where
  | literal {stop : Stop} {name : Text}
      (selects : branch.selectors[stop.index]? = some (.exactly name))
      (last : stop.index + 1 = branch.selectors.length)
      (present : tree.has (join stop.directory name) = true) :
      Selects tree branch stop (join stop.directory name)
  | named {stop : Stop} {regex : Regex} {child : Text}
      (selects : branch.selectors[stop.index]? = some (.named regex))
      (last : stop.index + 1 = branch.selectors.length)
      (readable : stop.directory ∉ tree.unreadable) (below : tree.IsChild stop.directory child)
      (fits : regex.found (fileName child) = true) : Selects tree branch stop child
  | everywhere {stop : Stop} {child : Text}
      (selects : branch.selectors[stop.index]? = some .everywhere)
      (last : stop.index + 1 = branch.selectors.length)
      (readable : stop.directory ∉ tree.unreadable) (below : tree.IsChild stop.directory child) :
      Selects tree branch stop child

/-- The stops that a branch reaches from a directory: the least set that holds it and is closed. -/
def Reaches (tree : Tree) (branch : Branch) (base : Text) (stop : Stop) : Prop :=
  Relation.ReflTransGen (tree.Leads branch) ⟨base, 0⟩ stop

def below (tree : Tree) (keep : Text → Bool) (directory : Text) : List Text :=
  ((tree.children directory).map Entry.path).filter keep

theorem mem_below_iff (tree : Tree) (keep : Text → Bool) (directory child : Text) :
    child ∈ tree.below keep directory ↔ tree.IsChild directory child ∧ keep child = true := by
  rw [below, List.mem_filter, mem_children_iff]
  rfl

theorem list_outcome_eq_ok_iff (tree : Tree) (keep : Text → Bool) {directory : Text}
    (place : IsPlace directory) (paths : List Text) :
    (tree.list keep directory).outcome = .ok paths ↔
      directory ∉ tree.unreadable ∧ tree.below keep directory = paths := by
  rw [list, Tree.resolve, place.resolve_eq, below]
  by_cases unreadable : directory ∈ tree.unreadable <;> simp [unreadable]

theorem mem_candidates_list_iff (tree : Tree) (keep : Text → Bool) {directory : Text}
    (place : IsPlace directory) (go : List Text → Expansion) (found : Text) :
    found ∈ (Expansion.listing (tree.list keep directory) go).candidates ↔
      directory ∉ tree.unreadable ∧ found ∈ (go (tree.below keep directory)).candidates := by
  simp only [Expansion.mem_candidates_listing_iff, list_outcome_eq_ok_iff tree keep place,
    and_assoc, exists_and_left, exists_eq_left']

variable {tree : Tree} {branch : Branch} {stop : Stop}

theorem is_directory_join_iff {directory name : Text} (place : IsPlace directory)
    (named : IsName name) :
    tree.filesystem.isDirectory (join directory name) = true ↔
      tree.hasDirectory (join directory name) = true := by
  simp only [filesystem, Tree.resolve, (place.join named).resolve_eq]

theorem holds_join_iff {directory name : Text} (place : IsPlace directory) (named : IsName name) :
    tree.filesystem.holds (join directory name) = true ↔
      tree.has (join directory name) = true := by
  simp only [Filesystem.holds, filesystem, Tree.resolve, (place.join named).resolve_eq, has]

/-- The stops of a branch lead on just as they do by the entries of the tree. -/
theorem leads_iff (place : IsPlace stop.directory)
    (named : ∀ name, .exactly name ∈ branch.selectors → IsName name) {next : Stop} :
    branch.Leads tree.filesystem stop next ↔ tree.Leads branch stop next := by
  rw [Branch.leads_iff]
  constructor
  · intro leads
    cases leads with
    | literal selects inner directory =>
        have isName := named _ (List.mem_of_getElem? selects)
        exact .literal selects inner ((is_directory_join_iff place isName).mp directory)
    | named selects inner listed among fits =>
        obtain ⟨readable, rfl⟩ := (list_outcome_eq_ok_iff tree _ place _).mp listed
        obtain ⟨isChild, directory⟩ := (mem_below_iff tree _ _ _).mp among
        exact .named selects inner readable isChild directory fits
    | below selects _ listed among =>
        obtain ⟨readable, rfl⟩ := (list_outcome_eq_ok_iff tree _ place _).mp listed
        obtain ⟨isChild, directory⟩ := (mem_below_iff tree _ _ _).mp among
        exact .below selects readable isChild directory
    | onward selects inner listed =>
        exact .onward selects inner ((list_outcome_eq_ok_iff tree _ place _).mp listed).1
  · intro leads
    cases leads with
    | literal selects inner directory =>
        have isName := named _ (List.mem_of_getElem? selects)
        exact .literal selects inner ((is_directory_join_iff place isName).mpr directory)
    | named selects inner readable isChild directory fits =>
        have listed := (list_outcome_eq_ok_iff tree tree.hasDirectory place _).mpr ⟨readable, rfl⟩
        exact .named selects inner listed ((mem_below_iff tree _ _ _).mpr ⟨isChild, directory⟩) fits
    | below selects readable isChild directory =>
        have opened := (list_outcome_eq_ok_iff tree (fun _ => true) place _).mpr ⟨readable, rfl⟩
        have listed := (list_outcome_eq_ok_iff tree tree.hasDirectory place _).mpr ⟨readable, rfl⟩
        exact .below selects (fun _ => ⟨_, opened⟩) listed
          ((mem_below_iff tree _ _ _).mpr ⟨isChild, directory⟩)
    | onward selects inner readable =>
        exact .onward selects inner
          ((list_outcome_eq_ok_iff tree tree.hasDirectory place _).mpr ⟨readable, rfl⟩)

theorem candidate_of_selects (place : IsPlace stop.directory)
    (named : ∀ name, .exactly name ∈ branch.selectors → IsName name) {found : Text}
    (selected : tree.Selects branch stop found) :
    found ∈ (branch.expand tree.filesystem stop).candidates := by
  cases selected with
  | @literal name selects last present =>
      have held := (holds_join_iff place (named name (List.mem_of_getElem? selects))).mpr present
      rw [Branch.expand_of_last selects last, Selector.expandLast]
      simp [held]
  | named selects last readable isChild fits =>
      have listed := (mem_below_iff tree (fun _ => true) _ found).mpr ⟨isChild, rfl⟩
      rw [Branch.expand_of_last selects last]
      apply (mem_candidates_list_iff tree _ place _ _).mpr
      exact ⟨readable, List.mem_filter.mpr ⟨listed, fits⟩⟩
  | everywhere selects last readable isChild =>
      have listed := (mem_below_iff tree (fun _ => true) _ found).mpr ⟨isChild, rfl⟩
      rw [Branch.expand_of_last selects last]
      exact (mem_candidates_list_iff tree _ place _ _).mpr ⟨readable, listed⟩

theorem selects_of_candidate (place : IsPlace stop.directory)
    (named : ∀ name, .exactly name ∈ branch.selectors → IsName name) {found : Text}
    (candidate : found ∈ (branch.expand tree.filesystem stop).candidates) :
    tree.Selects branch stop found := by
  cases selects : branch.selectors[stop.index]? with
  | none => simp [Branch.expand, selects] at candidate
  | some selector =>
      rcases Branch.inner_or_last selects with inner | last
      · rw [Branch.expand_of_inner selects inner] at candidate
        cases selector <;>
          simp [Selector.expandInner, Expansion.mem_candidates_listing_iff] at candidate
      · rw [Branch.expand_of_last selects last] at candidate
        cases selector with
        | exactly name =>
            have isName := named name (List.mem_of_getElem? selects)
            simp only [Selector.expandLast] at candidate
            split at candidate
            · rename_i held
              rw [List.mem_singleton] at candidate
              subst candidate
              exact .literal selects last ((holds_join_iff place isName).mp held)
            · simp at candidate
        | named regex =>
            obtain ⟨readable, member⟩ := (mem_candidates_list_iff tree _ place _ _).mp candidate
            obtain ⟨listed, fits⟩ := List.mem_filter.mp member
            obtain ⟨isChild, -⟩ := (mem_below_iff tree _ _ found).mp listed
            exact .named selects last readable isChild fits
        | everywhere =>
            obtain ⟨readable, listed⟩ := (mem_candidates_list_iff tree _ place _ _).mp candidate
            obtain ⟨isChild, -⟩ := (mem_below_iff tree _ _ found).mp listed
            exact .everywhere selects last readable isChild

theorem mem_candidates_iff (place : IsPlace stop.directory)
    (named : ∀ name, .exactly name ∈ branch.selectors → IsName name) (found : Text) :
    found ∈ (branch.expand tree.filesystem stop).candidates ↔ tree.Selects branch stop found :=
  ⟨selects_of_candidate place named, candidate_of_selects place named⟩

theorem listing_fails_iff (keep : Text → Bool) {directory : Text} (place : IsPlace directory)
    {go : List Text → Expansion}
    (goes : directory ∉ tree.unreadable → ∀ paths, (go paths).failure.isSome = false) :
    (Expansion.listing (tree.list keep directory) go).failure.isSome = true ↔
      directory ∈ tree.unreadable := by
  rw [Expansion.failure_listing_iff]
  constructor
  · intro fails
    by_contra readable
    have failed := fails _ ((list_outcome_eq_ok_iff tree keep place _).mpr ⟨readable, rfl⟩)
    rw [goes readable] at failed
    cases failed
  · intro unreadable paths listed
    exact absurd unreadable ((list_outcome_eq_ok_iff tree keep place paths).mp listed).1

/-- A stop fails when its directory is unreadable and its component reads it. -/
theorem failure_iff (place : IsPlace stop.directory) :
    (branch.expand tree.filesystem stop).failure.isSome = true ↔
      stop.directory ∈ tree.unreadable ∧
        ∃ selector, branch.selectors[stop.index]? = some selector ∧ selector.Lists := by
  cases selects : branch.selectors[stop.index]? with
  | none => simp [Branch.expand, selects]
  | some selector =>
      simp only [Option.some.injEq, exists_eq_left']
      rcases Branch.inner_or_last selects with inner | last
      · rw [Branch.expand_of_inner selects inner]
        cases selector with
        | exactly name => simp [Selector.expandInner, Selector.Lists]
        | named regex =>
            rw [Selector.Lists, and_true]
            exact listing_fails_iff tree.hasDirectory place fun _ _ => rfl
        | everywhere =>
            rw [Selector.Lists, and_true]
            exact listing_fails_iff tree.hasDirectory place fun _ _ => rfl
      · rw [Branch.expand_of_last selects last]
        cases selector with
        | exactly name => simp [Selector.expandLast, Selector.Lists]
        | named regex =>
            rw [Selector.Lists, and_true]
            exact listing_fails_iff (fun _ => true) place fun _ _ => rfl
        | everywhere =>
            rw [Selector.Lists, and_true]
            apply listing_fails_iff (fun _ => true) place
            intro readable _
            rw [Bool.eq_false_iff]
            exact mt (listing_fails_iff tree.hasDirectory place fun _ _ => rfl).mp readable

theorem Shape.name_of_child (shape : tree.Shape) {front : List Text} {child : Text}
    (frontNamed : ∀ name ∈ front, IsName name) (isChild : tree.IsChild (absolute front) child) :
    ∃ name, IsName name ∧ child = absolute (front ++ [name]) := by
  rcases shape.places child isChild.1 with ⟨names, named, rfl⟩
  rcases eq_of_parent_eq named frontNamed isChild.2 with ⟨name, rfl⟩
  exact ⟨name, named name (by simp), rfl⟩

theorem Shape.place_of_reaches {base : Text} (shape : tree.Shape) (place : IsPlace base)
    (named : ∀ name, .exactly name ∈ branch.selectors → IsName name)
    (reaches : tree.Reaches branch base stop) : IsPlace stop.directory := by
  induction reaches with
  | refl => exact place
  | tail _ leads ih =>
      cases leads with
      | literal selects => exact ih.join (named _ (List.mem_of_getElem? selects))
      | named _ _ _ below => exact shape.places _ below.1
      | below _ _ below => exact shape.places _ below.1
      | onward => exact ih

theorem reaches_iff {start : Text} (shape : tree.Shape)
    (place : IsPlace (branch.base tree.filesystem start))
    (named : ∀ name, .exactly name ∈ branch.selectors → IsName name) :
    branch.Reaches tree.filesystem start stop ↔
      tree.Reaches branch (branch.base tree.filesystem start) stop := by
  constructor
  · intro reaches
    induction reaches with
    | refl => exact .refl
    | tail _ leads ih =>
        exact ih.tail ((leads_iff (shape.place_of_reaches place named ih) named).mp leads)
  · intro reaches
    induction reaches with
    | refl => exact .refl
    | tail earlier leads ih =>
        exact ih.tail ((leads_iff (shape.place_of_reaches place named earlier) named).mpr leads)

end Tree

theorem Component.Proper.is_name {text : Text} (proper : (Component.literal text).Proper) :
    IsName text := by
  have busy := proper.busy
  rw [Component.isIdle, Bool.or_eq_false_iff, beq_eq_false_iff_ne, beq_eq_false_iff_ne] at busy
  constructor
  · intro none
    exact busy.1 (congrArg Component.literal none)
  · intro dot
    exact busy.2 (congrArg Component.literal dot)
  · exact separator_free_of_plain proper.spelled

theorem Branch.Parsed.is_name_of_exactly {branch : Branch} (parsed : branch.Parsed) {name : Text}
    (selected : .exactly name ∈ branch.selectors) : IsName name := by
  have literal : ∀ components : List Component,
      .exactly name ∈ Component.selectors branch.mode components →
        .literal name ∈ components := by
    intro components selected
    induction components with
    | nil => cases selected
    | cons component rest ih =>
        rcases List.mem_cons.mp selected with first | later
        · cases component with
          | literal text =>
              cases mode : branch.mode with
              | sensitive =>
                  rw [mode] at first
                  cases first
                  simp
              | insensitive =>
                  rw [mode] at first
                  cases first
          | compound parts => cases first
          | globstar => cases first
        · exact List.mem_cons_of_mem component (ih later)
  exact (parsed.proper.components _ (literal _ selected)).is_name

end PathGlob
