import PathGlob.Proofs.Walk.Exhaustion

/-!
# Walks do not depend on the order of listings

Two filesystems have the same contents if they answer alike, except that a listing may come in
another order and with repetitions. The order decides which stop is made first and which one is
dropped as made before, but not which stops are reached, and so neither what is found nor how often
a listing fails.
-/
namespace PathGlob

set_option autoImplicit false

/-- Whether two listings both fail or hold the same paths, in any order and with any repetitions. -/
inductive Listing.SamePaths (left right : Listing) : Prop where
  | failed {error other : ListingError} (leftFails : left.outcome = .error error)
      (rightFails : right.outcome = .error other)
  | listed {paths others : List Text} (leftLists : left.outcome = .ok paths)
      (rightLists : right.outcome = .ok others) (same : ∀ path, path ∈ paths ↔ path ∈ others)

theorem Listing.SamePaths.refl (listing : Listing) : listing.SamePaths listing := by
  cases outcome : listing.outcome with
  | error error => exact .failed outcome outcome
  | ok paths => exact .listed outcome outcome fun _ => Iff.rfl

/-- Whether two filesystems answer alike, up to the order and the repetitions of their listings. -/
structure Filesystem.SameContents (left right : Filesystem) : Prop where
  root : left.root = right.root
  workingDirectory : left.workingDirectory = right.workingDirectory
  isFile : ∀ path, left.isFile path = right.isFile path
  isDirectory : ∀ path, left.isDirectory path = right.isDirectory path
  entries : ∀ directory, (left.entries directory).SamePaths (right.entries directory)
  directories : ∀ directory, (left.directories directory).SamePaths (right.directories directory)

namespace Expansion

structure Agrees (left right : Expansion) : Prop where
  next : ∀ stop, stop ∈ left.next ↔ stop ∈ right.next
  candidates : ∀ path, path ∈ left.candidates ↔ path ∈ right.candidates
  failure : left.failure.isSome = right.failure.isSome

theorem Agrees.refl (expansion : Expansion) : expansion.Agrees expansion :=
  ⟨fun _ => Iff.rfl, fun _ => Iff.rfl, rfl⟩

def inside (stop : Stop) (directories : List Text) : Expansion :=
  { next := directories.map fun directory => ⟨directory, stop.index⟩ }

theorem listing_agrees {left right : Listing} (same : left.SamePaths right)
    {go further : List Text → Expansion}
    (goes : ∀ paths others, (∀ path, path ∈ paths ↔ path ∈ others) →
      (go paths).Agrees (further others)) :
    (listing left go).Agrees (listing right further) := by
  cases same with
  | failed leftFails rightFails =>
      rw [listing, listing, leftFails, rightFails]
      exact ⟨fun _ => Iff.rfl, fun _ => Iff.rfl, rfl⟩
  | listed leftLists rightLists same =>
      rw [listing, listing, leftLists, rightLists]
      have agrees := goes _ _ same
      exact ⟨agrees.next, agrees.candidates, agrees.failure⟩

end Expansion

namespace Filesystem.SameContents

variable {left right : Filesystem}

theorem start_in_eq (same : left.SameContents right) (path : Text) :
    Walk.startIn left path = Walk.startIn right path := by
  rw [Walk.startIn, Walk.startIn, same.workingDirectory]

theorem base_eq (same : left.SameContents right) (start : Text) (branch : Branch) :
    branch.base left start = branch.base right start := by
  rw [Branch.base, Branch.base, same.root]

theorem expand_last_agrees (same : left.SameContents right) (stop : Stop) (selector : Selector) :
    (selector.expandLast left stop).Agrees (selector.expandLast right stop) := by
  cases selector with
  | exactly name =>
      rw [Selector.expandLast, Selector.expandLast, holds, holds, same.isFile, same.isDirectory]
      exact .refl _
  | named regex =>
      apply Expansion.listing_agrees (same.entries _)
      intro paths others samePaths
      refine ⟨fun _ => Iff.rfl, fun path => ?_, rfl⟩
      rw [List.mem_filter, List.mem_filter, samePaths]
  | everywhere =>
      apply Expansion.listing_agrees (same.entries _)
      intro paths others samePaths
      have below : (Expansion.listing (left.directories stop.directory) (.inside stop)).Agrees
          (Expansion.listing (right.directories stop.directory) (.inside stop)) := by
        apply Expansion.listing_agrees (same.directories _)
        intro directories otherDirectories sameDirectories
        refine ⟨fun next => ?_, fun _ => Iff.rfl, rfl⟩
        simp only [Expansion.inside, List.mem_map, sameDirectories]
      exact ⟨below.next, samePaths, below.failure⟩

theorem expand_inner_agrees (same : left.SameContents right) (stop : Stop) (selector : Selector) :
    (selector.expandInner left stop).Agrees (selector.expandInner right stop) := by
  cases selector with
  | exactly name =>
      rw [Selector.expandInner, Selector.expandInner, same.isDirectory]
      exact .refl _
  | named regex =>
      apply Expansion.listing_agrees (same.directories _)
      intro paths others samePaths
      refine ⟨fun next => ?_, fun _ => Iff.rfl, rfl⟩
      simp only [List.mem_map, List.mem_filter, samePaths]
  | everywhere =>
      apply Expansion.listing_agrees (same.directories _)
      intro paths others samePaths
      refine ⟨fun next => ?_, fun _ => Iff.rfl, rfl⟩
      simp only [List.mem_cons, List.mem_map, samePaths]

theorem expand_agrees (same : left.SameContents right) (branch : Branch) (stop : Stop) :
    (branch.expand left stop).Agrees (branch.expand right stop) := by
  rw [Branch.expand, Branch.expand]
  split
  · exact .refl _
  · split
    · exact same.expand_last_agrees stop _
    · exact same.expand_inner_agrees stop _

theorem reaches_iff (same : left.SameContents right) (branch : Branch) (start : Text)
    (stop : Stop) :
    branch.Reaches left start stop ↔ branch.Reaches right start stop := by
  have leads : branch.Leads left = branch.Leads right := by
    funext one next
    exact propext ((same.expand_agrees branch one).next next)
  rw [Branch.Reaches, Branch.Reaches, leads, same.base_eq]

theorem finds_iff (same : left.SameContents right) (branch : Branch) (start found : Text) :
    branch.Finds left start found ↔ branch.Finds right start found := by
  simp only [Branch.Finds, same.reaches_iff, (same.expand_agrees branch _).candidates]

theorem fails_at_iff (same : left.SameContents right) (branch : Branch) (start : Text)
    (stop : Stop) :
    branch.FailsAt left start stop ↔ branch.FailsAt right start stop := by
  rw [Branch.FailsAt, Branch.FailsAt, same.reaches_iff, (same.expand_agrees branch stop).failure]

theorem territory (same : left.SameContents right) {pattern : Pattern} {start : Text}
    {inside : List Text} (territory : left.Territory pattern start inside) :
    right.Territory pattern start inside where
  bases := by
    intro branch member
    rw [← same.start_in_eq, ← same.base_eq]
    exact territory.bases branch member
  listed := by
    intro directory within directories listed child member
    cases same.directories directory with
    | failed leftFails rightFails =>
        rw [rightFails] at listed
        cases listed
    | listed leftLists rightLists samePaths =>
        rw [rightLists] at listed
        cases listed
        exact territory.listed directory within _ leftLists ((samePaths child).mpr member)
  lookedUp := by
    intro branch member name selected directory within isDirectory
    rw [← same.isDirectory] at isDirectory
    exact territory.lookedUp branch member name selected directory within isDirectory

end Filesystem.SameContents

namespace Walk

variable {left right : Filesystem} {pattern : Pattern} {start : Text}

def FindAlike (left right : Filesystem) (pattern : Pattern) (start : Text) : Prop :=
  ∃ items last others otherLast,
    Step.Drains (step left) (begin pattern left start) items last ∧
    Step.Drains (step right) (begin pattern right start) others otherLast ∧
    (items.filterMap (·.1.path?)).Nodup ∧ (others.filterMap (·.1.path?)).Nodup ∧
    (∀ found, found ∈ items.filterMap (·.1.path?) ↔ found ∈ others.filterMap (·.1.path?)) ∧
    (items.filterMap (·.1.failure?)).length = (others.filterMap (·.1.failure?)).length

theorem same_number_of_failures (same : left.SameContents right)
    {items others : List (Finding × Walk)} (exhausts : Exhausts left pattern start items)
    (otherExhausts : Exhausts right pattern start others) :
    (items.filterMap (·.1.failure?)).length = (others.filterMap (·.1.failure?)).length := by
  rcases exhausts.failures with ⟨failing, distinct, fails, count⟩
  rcases otherExhausts.failures with ⟨otherFailing, otherDistinct, otherFails, otherCount⟩
  have members : failing.Perm otherFailing := by
    apply (List.perm_ext_iff_of_nodup distinct otherDistinct).mpr
    intro numbered
    rw [fails numbered.1 numbered.2, otherFails numbered.1 numbered.2, same.start_in_eq]
    simp only [same.fails_at_iff]
  rw [count, otherCount, members.length_eq]

/-- Walks through filesystems of the same contents end if one does, and find the same. -/
theorem find_alike (same : left.SameContents right) {inside : List Text}
    (territory : left.Territory pattern start inside) : FindAlike left right pattern start := by
  rcases drains_exhausting territory with ⟨items, last, drains, exhausts⟩
  rcases drains_exhausting (same.territory territory)
    with ⟨others, otherLast, otherDrains, otherExhausts⟩
  refine ⟨items, last, others, otherLast, drains, otherDrains, exhausts.distinct,
    otherExhausts.distinct,
    ?_, same_number_of_failures same exhausts otherExhausts⟩
  intro found
  rw [exhausts.paths, otherExhausts.paths, same.start_in_eq]
  simp only [same.finds_iff]

end Walk

end PathGlob
