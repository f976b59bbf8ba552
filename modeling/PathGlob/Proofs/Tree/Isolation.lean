import PathGlob.Proofs.Path.Below
import PathGlob.Proofs.Tree.Walks
import PathGlob.Proofs.Walk.Succession

/-!
# An unreadable directory hides what is below it

Making one more directory unreadable adds nothing to what a walk finds and only hides what is
strictly below that directory. Where a branch gets without listing the directory it still gets, and
once it has listed it all further stops are the directory itself or below it, since no component
leads up again.
-/
namespace PathGlob.Tree

set_option autoImplicit false

open PathGlob.Path

variable {tree : Tree} {branch : Branch} {directory : Text} {stop next : Stop}

theorem Shape.forbid (shape : tree.Shape) (directory : Text) : (tree.forbid directory).Shape :=
  shape.with_unreadable _

theorem not_unreadable_forbid_iff (tree : Tree) (directory place : Text) :
    place ∉ (tree.forbid directory).unreadable ↔
      place ∉ tree.unreadable ∧ place ≠ tree.resolve directory := by
  rw [forbid, List.mem_append, List.mem_singleton, not_or]

/-- Where a branch gets depends on what is unreadable only through the directory of the stop. -/
theorem Leads.of_readable {unreadable : List Text}
    (opens : stop.directory ∉ tree.unreadable → stop.directory ∉ unreadable)
    (leads : tree.Leads branch stop next) : { tree with unreadable }.Leads branch stop next := by
  cases leads with
  | literal selects inner isDirectory => exact .literal selects inner isDirectory
  | named selects inner readable isChild isDirectory fits =>
      exact .named selects inner (opens readable) isChild isDirectory fits
  | below selects readable isChild isDirectory =>
      exact .below selects (opens readable) isChild isDirectory
  | onward selects inner readable => exact .onward selects inner (opens readable)

theorem Selects.of_readable {unreadable : List Text}
    (opens : stop.directory ∉ tree.unreadable → stop.directory ∉ unreadable) {found : Text}
    (selected : tree.Selects branch stop found) :
    { tree with unreadable }.Selects branch stop found := by
  cases selected with
  | literal selects last present => exact .literal selects last present
  | named selects last readable isChild fits =>
      exact .named selects last (opens readable) isChild fits
  | everywhere selects last readable isChild =>
      exact .everywhere selects last (opens readable) isChild

/-- With one directory less to read a branch gets nowhere else. -/
theorem reaches_of_forbid {base : Text}
    (reaches : (tree.forbid directory).Reaches branch base stop) :
    tree.Reaches branch base stop := by
  induction reaches with
  | refl => exact .refl
  | tail _ leads ih =>
      apply ih.tail
      apply Leads.of_readable _ leads
      exact fun readable => ((not_unreadable_forbid_iff tree directory _).mp readable).1

theorem finds_of_forbid {start found : Text}
    (finds : (tree.forbid directory).Finds branch start found) :
    tree.Finds branch start found := by
  rcases finds with ⟨⟨stop, reaches, selected⟩, matched⟩
  refine ⟨⟨stop, reaches_of_forbid reaches, ?_⟩, matched⟩
  apply Selects.of_readable _ selected
  exact fun readable => ((not_unreadable_forbid_iff tree directory _).mp readable).1

theorem Shape.child_below (shape : tree.Shape) {above child : Text} (place : IsPlace directory)
    (within : Within above directory) (nonempty : above ≠ [])
    (isChild : tree.IsChild directory child) :
    Below above child := by
  rcases place with ⟨front, named, rfl⟩
  rcases shape.name_of_child named isChild with ⟨name, isName, rfl⟩
  rw [← join_absolute named isName.slash_not_mem]
  exact within.join nonempty isName.is_segment

section Down

variable {above : Text} (shape : tree.Shape) (parsed : branch.Parsed)
    (place : IsPlace stop.directory)
  (nonempty : above ≠ []) (within : Within above stop.directory)

include shape parsed place nonempty within

theorem Shape.leads_down (leads : tree.Leads branch stop next) : Within above next.directory := by
  cases leads with
  | literal selects =>
      have named := parsed.is_name_of_exactly (List.mem_of_getElem? selects)
      exact .inr (within.join nonempty named.is_segment)
  | named _ _ _ isChild => exact .inr (shape.child_below place within nonempty isChild)
  | below _ _ isChild => exact .inr (shape.child_below place within nonempty isChild)
  | onward => exact within

theorem Shape.selects_down {found : Text} (selected : tree.Selects branch stop found) :
    Below above found := by
  cases selected with
  | literal selects =>
      have named := parsed.is_name_of_exactly (List.mem_of_getElem? selects)
      exact within.join nonempty named.is_segment
  | named _ _ _ isChild => exact shape.child_below place within nonempty isChild
  | everywhere _ _ _ isChild => exact shape.child_below place within nonempty isChild

end Down

theorem Shape.resolve_ne_nil (shape : tree.Shape) (directory : Text) :
    tree.resolve directory ≠ [] := by
  rw [shape.resolve_eq]
  exact List.cons_ne_nil _ _

/-- A branch gets to the stops that it got to before, or is at or below the directory. -/
theorem Shape.reaches_forbid (shape : tree.Shape) (parsed : branch.Parsed) {base : Text}
    (place : IsPlace base) (directory : Text) (reaches : tree.Reaches branch base stop) :
    (tree.forbid directory).Reaches branch base stop ∨
    Within (tree.resolve directory) stop.directory := by
  have nonempty := shape.resolve_ne_nil directory
  induction reaches with
  | refl => exact .inl .refl
  | @tail stop next earlier leads ih =>
      have atPlace := shape.place_of_reaches place (fun _ => parsed.is_name_of_exactly) earlier
      rcases ih with still | within
      · by_cases here : stop.directory = tree.resolve directory
        · exact .inr (shape.leads_down parsed atPlace nonempty (.inl here) leads)
        · refine .inl (still.tail (leads.of_readable ?_))
          exact fun readable => (not_unreadable_forbid_iff tree directory _).mpr ⟨readable, here⟩
      · exact .inr (shape.leads_down parsed atPlace nonempty within leads)

theorem Shape.finds_forbid (shape : tree.Shape) (parsed : branch.Parsed) (directory : Text)
    {start found : Text} (finds : tree.Finds branch start found) :
    (tree.forbid directory).Finds branch start found ∨ Below (tree.resolve directory) found := by
  have nonempty := shape.resolve_ne_nil directory
  have place := shape.place_base start branch
  rcases finds with ⟨⟨stop, reaches, selected⟩, matched⟩
  have atPlace := shape.place_of_reaches place (fun _ => parsed.is_name_of_exactly) reaches
  rcases shape.reaches_forbid parsed place directory reaches with still | within
  · by_cases here : stop.directory = tree.resolve directory
    · exact .inr (shape.selects_down parsed atPlace nonempty (.inl here) selected)
    · refine .inl ⟨⟨stop, still, selected.of_readable ?_⟩, matched⟩
      exact fun readable => (not_unreadable_forbid_iff tree directory _).mpr ⟨readable, here⟩
  · exact .inr (shape.selects_down parsed atPlace nonempty within selected)

/--
Making one more directory of a tree unreadable only takes paths from what a complete walk finds, and
every path that it takes is strictly below that directory.
-/
theorem unreadable_directory_hides_below (paths unreadable : List Text) {pattern : Pattern}
    (built : pattern.Built) (directory start : Text) :
    ∃ all left,
      Walk.HandsOut { ofPaths paths with unreadable }.filesystem pattern start all ∧
      Walk.HandsOut
        ({ ofPaths paths with unreadable }.forbid directory).filesystem pattern start left ∧
      left ⊆ all ∧
      ∀ found ∈ all, found ∉ left →
        Below ({ ofPaths paths with unreadable }.resolve directory) found := by
  have shape := (of_paths_shape paths).with_unreadable unreadable
  have parsed := built.proper.parsed
  rcases shape.walk_exhausts parsed start with ⟨items, last, drains, exhausts⟩
  rcases (shape.forbid directory).walk_exhausts parsed start with
    ⟨others, otherLast, otherDrains, otherExhausts⟩
  refine ⟨_, _, ⟨items, last, drains, rfl⟩, ⟨others, otherLast, otherDrains, rfl⟩, ?_, ?_⟩
  · intro found member
    rcases (otherExhausts.paths found).mp member with ⟨branch, among, finds⟩
    exact (exhausts.paths found).mpr ⟨branch, among, finds_of_forbid finds⟩
  · intro found member lost
    rcases (exhausts.paths found).mp member with ⟨branch, among, finds⟩
    apply (shape.finds_forbid (parsed branch among) directory finds).resolve_left
    intro still
    exact lost ((otherExhausts.paths found).mpr ⟨branch, among, still⟩)

/-- The pattern `**;/a/b` where `/a` is made unreadable, which its second branch does not list. -/
theorem unreadable_directory_hides_below_globstar :
    ∃ pattern,
      Pattern.compile .lenient ['*', '*', ';', '/', 'a', '/', 'b'] .sensitive = .ok pattern ∧
      ∃ all left,
        Walk.HandsOut
          { ofPaths [['/', 'a', '/', 'b'], ['/', 'a', '/', 'c']] with unreadable := [] }.filesystem
          pattern ['/'] all ∧
        Walk.HandsOut
          ({ ofPaths [['/', 'a', '/', 'b'], ['/', 'a', '/', 'c']] with unreadable := [] }.forbid
          ['/', 'a']).filesystem pattern ['/'] left ∧
        left ⊆ all ∧
        ∀ found ∈ all, found ∉ left →
          Below
            ({ ofPaths [['/', 'a', '/', 'b'], ['/', 'a', '/', 'c']] with unreadable := [] }.resolve
            ['/', 'a']) found := by
  have compiled : Pattern.compile .lenient ['*', '*', ';', '/', 'a', '/', 'b'] .sensitive = .ok
      ⟨[⟨⟨false, [.globstar]⟩, .sensitive⟩,
        ⟨⟨true, [.literal ['a'], .literal ['b']]⟩, .sensitive⟩]⟩ := by
    decide +kernel
  exact ⟨_, compiled, unreadable_directory_hides_below _ [] (.compiled compiled) ['/', 'a'] ['/']⟩

end PathGlob.Tree
