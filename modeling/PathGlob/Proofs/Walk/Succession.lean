import PathGlob.Proofs.Walk.Extent
import PathGlob.Proofs.Walk.Findings

/-!
# Branch after branch

The stops that a branch makes depend on the filesystem alone, never on what other branches found or
read before it. So each branch has a yield of its own, and a traversal hands out the yields of its
branches one after the other, leaving out what was handed out already.
-/
namespace PathGlob

set_option autoImplicit false

namespace Branch

/-- The stops made, the last one first, once a visit to a stop has been made behind others. -/
def tour (filesystem : Filesystem) (branch : Branch) : Nat → List Stop → Stop → Option (List Stop)
  | 0, _, _ => none
  | depth + 1, visited, stop =>
    if stop ∈ visited then some visited
    else (branch.expand filesystem stop).next.foldlM (tour filesystem branch depth)
      (stop :: visited)

def yield (filesystem : Filesystem) (start : Text) (depth : Nat) (branch : Branch) : List Text :=
  let stops := (branch.tour filesystem depth [] ⟨branch.base filesystem start, 0⟩).getD []
  branch.matchedAt filesystem stops.reverse

end Branch

section Folds

variable {State Other Item : Type}

theorem foldl_m_map {advance : State → Item → Option State} {further : Other → Item → Option Other}
    {view : State → Other}
    (steps : ∀ state item, (advance state item).map view = further (view state) item)
    (items : List Item) (state : State) :
    (items.foldlM advance state).map view = items.foldlM further (view state) := by
  induction items generalizing state with
  | nil => rfl
  | cons item items ih =>
      rw [List.foldlM_cons, List.foldlM_cons, ← steps]
      cases advance state item with
      | none => rfl
      | some next => exact ih next

end Folds

namespace Record

variable {filesystem : Filesystem} {branch : Branch} {start : Text} {depth : Nat}

theorem map_visited_visit (record : Record) (stop : Stop) :
    (record.visit filesystem branch depth stop).map visited =
      branch.tour filesystem depth record.visited stop := by
  induction depth generalizing record stop with
  | zero => rfl
  | succ depth ih =>
      rw [visit, Branch.tour]
      split
      · rfl
      · rw [foldl_m_map ih, make_visited]

/-- A branch adds its yield, whatever was handed out before it. -/
theorem handed_out_follow {record after : Record}
    (followed : record.follow filesystem start depth branch = some after) :
    after.handedOut = collect record.handedOut (branch.yield filesystem start depth) := by
  rcases follow_makes followed with ⟨made, -, -, makes⟩
  -- The stops made are those of the tour, which knows nothing of the record.
  have toured : branch.tour filesystem depth [] ⟨branch.base filesystem start, 0⟩ =
      some made.reverse := by
    have visited := congrArg (Option.map Record.visited) followed
    rw [follow, map_visited_visit, makes, Option.map_some, make_all_visited,
      List.append_nil] at visited
    exact visited
  rw [makes, handed_out_make_all, Branch.yield, toured, Option.getD_some, List.reverse_reverse]

theorem handed_out_branches {branches : List Branch} {record after : Record}
    (followed : branches.foldlM (follow filesystem start depth) record = some after) :
    after.handedOut =
      collect record.handedOut
        (branches.flatMap fun branch => branch.yield filesystem start depth) := by
  induction branches generalizing record with
  | nil =>
      cases followed
      rfl
  | cons branch branches ih =>
      rcases foldl_m_cons_eq_some followed with ⟨middle, first, rest⟩
      rw [ih rest, handed_out_follow first, collect_collect, List.flatMap_cons]

end Record

namespace Pattern

variable {filesystem : Filesystem} {pattern : Pattern} {path : Text} {depth : Nat} {record : Record}

/-- The paths of a traversal are the yields of its branches, each path where it came up first. -/
theorem paths_of_traverse (traversed : pattern.traverse filesystem path depth = some record) :
    record.paths = distinctBy id (pattern.branches.flatMap fun branch =>
      branch.yield filesystem (Walk.startIn filesystem path) depth) := by
  have nothing : ({} : Record).Sound := ⟨rfl, List.nodup_nil⟩
  rw [(Record.branches_sound nothing traversed).paths, Record.handed_out_branches traversed,
    collect, List.append_nil, List.reverse_reverse]
  rfl

end Pattern

namespace Walk

/-- Whether a walk pulled to its end hands out certain paths, in their order. -/
def HandsOut (filesystem : Filesystem) (pattern : Pattern) (start : Text) (paths : List Text) :
    Prop :=
  ∃ items last, Step.Drains (step filesystem) (begin pattern filesystem start) items last ∧
    items.filterMap (·.1.path?) = paths

variable {filesystem : Filesystem} {pattern whole : Pattern} {start : Text} {inside : List Text}
  {depth : Nat}

/--
Inside a territory of many branches, some of them in any order hand out their yields one after the
other, without repetitions.
-/
theorem hands_out_yields (territory : filesystem.Territory whole start inside)
    (enough : (whole.stopsInside inside).length < depth)
    (among : pattern.branches ⊆ whole.branches) :
    HandsOut filesystem pattern start (distinctBy id (pattern.branches.flatMap fun branch =>
      branch.yield filesystem (startIn filesystem start) depth)) := by
  rcases Pattern.traverse_ends_among territory enough among with ⟨record, traversed⟩
  rcases drains_of_traverse traversed with ⟨items, last, drains, findings, -⟩
  refine ⟨items, last, drains, ?_⟩
  rw [← Pattern.paths_of_traverse traversed, Record.paths, ← findings, List.filterMap_map]
  rfl

end Walk

end PathGlob
