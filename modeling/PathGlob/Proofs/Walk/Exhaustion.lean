import PathGlob.Proofs.Walk.Extent
import PathGlob.Proofs.Walk.Findings

/-!
# What a complete walk hands out

Inside a territory a walk comes to its end. What it has handed out by then depends only on the stops
that its branches reach: the paths are what some branch finds, and there is one failure for each
branch and each stop where it fails.
-/
namespace PathGlob.Walk

set_option autoImplicit false

/-- Whether items are all that a walk can find, each path once, and all failures it can meet. -/
structure Exhausts (filesystem : Filesystem) (pattern : Pattern) (start : Text)
    (items : List (Finding × Walk)) : Prop where
  distinct : (items.filterMap (·.1.path?)).Nodup
  paths : ∀ found, found ∈ items.filterMap (·.1.path?) ↔
    ∃ branch ∈ pattern.branches, branch.Finds filesystem (startIn filesystem start) found
  failures : ∃ failing : List (Nat × Stop), failing.Nodup ∧
    (∀ number stop, (number, stop) ∈ failing ↔
      ∃ branch, pattern.branches[number]? = some branch ∧
        branch.FailsAt filesystem (startIn filesystem start) stop) ∧
    (items.filterMap (·.1.failure?)).length = failing.length

theorem drains_exhausting {filesystem : Filesystem} {pattern : Pattern} {start : Text}
    {inside : List Text} (territory : filesystem.Territory pattern start inside) :
    ∃ items last, Step.Drains (step filesystem) (begin pattern filesystem start) items last ∧
      Exhausts filesystem pattern start items := by
  rcases Pattern.traverse_ends territory (Nat.lt_succ_self _) with ⟨record, traversed⟩
  rcases drains_of_traverse traversed with ⟨items, last, drains, findings, -⟩
  have paths : items.filterMap (·.1.path?) = record.paths := by
    rw [Record.paths, ← findings, List.filterMap_map]
    rfl
  have failures : items.filterMap (·.1.failure?) = record.failures := by
    rw [Record.failures, ← findings, List.filterMap_map]
    rfl
  rcases Pattern.traverse_paths traversed with ⟨distinct, found⟩
  have failing := Pattern.traverse_failures traversed
  rw [← paths] at distinct found
  rw [← failures] at failing
  exact ⟨items, last, drains, distinct, found, failing⟩

end PathGlob.Walk
