import Mathlib.Logic.Relation
import PathGlob.Proofs.Walk.Traversal

/-!
# What a traversal covers

Whatever the nesting of its calls, a traversal makes a list of stops, none of them twice. They are
exactly the stops that the first one leads to, in any number of steps: each was reached through one
made before it, and none is left out since every stop made has its next ones made as well. The
record is then a fold over the stops made, from which its findings are read off.
-/
namespace PathGlob

set_option autoImplicit false

def Branch.Leads (filesystem : Filesystem) (branch : Branch) (stop next : Stop) : Prop :=
  next ∈ (branch.expand filesystem stop).next

namespace Record

def makeAll (filesystem : Filesystem) (branch : Branch) (record : Record) (made : List Stop) :
    Record :=
  made.foldl (fun record stop => record.make branch stop (branch.expand filesystem stop)) record

@[simp] theorem offer_visited (branch : Branch) (record : Record) (path : Text) :
    (record.offer branch path).visited = record.visited := by
  rw [offer]
  split <;> rfl

@[simp] theorem offers_visited (branch : Branch) (record : Record) (paths : List Text) :
    (paths.foldl (offer branch) record).visited = record.visited := by
  induction paths generalizing record with
  | nil => rfl
  | cons path paths ih => rw [List.foldl_cons, ih, offer_visited]

@[simp] theorem make_visited (branch : Branch) (record : Record) (stop : Stop)
    (expansion : Expansion) :
    (record.make branch stop expansion).visited = stop :: record.visited := by
  rw [make, offers_visited, enter]

theorem make_all_visited (filesystem : Filesystem) (branch : Branch) (record : Record)
    (made : List Stop) :
    (record.makeAll filesystem branch made).visited = made.reverse ++ record.visited := by
  induction made generalizing record with
  | nil => rfl
  | cons stop made ih =>
      rw [makeAll, List.foldl_cons, ← makeAll, ih, make_visited]
      simp

/-- Whether the stops made lead from a list of stops to a record that has all they lead to. -/
structure Covers (filesystem : Filesystem) (branch : Branch) (record : Record)
    (stops made : List Stop) (after : Record) : Prop where
  makes : after = record.makeAll filesystem branch made
  distinct : made.Nodup
  fresh : ∀ stop ∈ made, stop ∉ record.visited
  reached :
    ∀ stop ∈ made, ∃ first ∈ stops, Relation.ReflTransGen (branch.Leads filesystem) first stop
  starts : ∀ stop ∈ stops, stop ∈ after.visited
  closed : ∀ stop ∈ made, ∀ next, branch.Leads filesystem stop next → next ∈ after.visited

namespace Covers

variable {filesystem : Filesystem} {branch : Branch} {record middle after : Record}
  {stop : Stop} {stops made others : List Stop}

theorem mem_visited_iff (covers : Covers filesystem branch record stops made after) (stop : Stop) :
    stop ∈ after.visited ↔ stop ∈ made ∨ stop ∈ record.visited := by
  rw [covers.makes, make_all_visited]
  simp

theorem nothing (record : Record) : Covers filesystem branch record [] [] record where
  makes := rfl
  distinct := List.nodup_nil
  fresh := by simp
  reached := by simp
  starts := by simp
  closed := by simp

theorem known (visited : stop ∈ record.visited) :
    Covers filesystem branch record [stop] [] record where
  makes := rfl
  distinct := List.nodup_nil
  fresh := by simp
  reached := by simp
  starts := by simpa using visited
  closed := by simp

theorem anew (unvisited : stop ∉ record.visited)
    (covers : Covers filesystem branch (record.make branch stop (branch.expand filesystem stop))
      (branch.expand filesystem stop).next made after) :
    Covers filesystem branch record [stop] (stop :: made) after where
  makes := covers.makes
  distinct := by
    rw [List.nodup_cons]
    refine ⟨?_, covers.distinct⟩
    intro member
    exact covers.fresh stop member (by simp)
  fresh := by
    intro other member
    rcases List.mem_cons.mp member with rfl | later
    · exact unvisited
    · intro visited
      exact covers.fresh other later (by simp [visited])
  reached := by
    intro other member
    refine ⟨stop, List.mem_singleton_self stop, ?_⟩
    rcases List.mem_cons.mp member with rfl | later
    · exact .refl
    · obtain ⟨first, leads, reaches⟩ := covers.reached other later
      exact .head leads reaches
  starts := by
    intro other member
    rw [covers.mem_visited_iff]
    simp [List.mem_singleton.mp member]
  closed := by
    intro other member next leads
    rcases List.mem_cons.mp member with rfl | later
    · exact covers.starts next leads
    · exact covers.closed other later next leads

theorem append (first : Covers filesystem branch record [stop] made middle)
    (rest : Covers filesystem branch middle stops others after) :
    Covers filesystem branch record (stop :: stops) (made ++ others) after where
  makes := by
    rw [rest.makes, first.makes, makeAll, makeAll, makeAll, List.foldl_append]
  distinct := by
    rw [List.nodup_append]
    refine ⟨first.distinct, rest.distinct, ?_⟩
    intro other earlier another later same
    subst same
    exact rest.fresh other later ((first.mem_visited_iff other).mpr (.inl earlier))
  fresh := by
    intro other member
    rcases List.mem_append.mp member with earlier | later
    · exact first.fresh other earlier
    · intro visited
      exact rest.fresh other later ((first.mem_visited_iff other).mpr (.inr visited))
  reached := by
    intro other member
    rcases List.mem_append.mp member with earlier | later
    · obtain ⟨start, among, reaches⟩ := first.reached other earlier
      exact ⟨start, by simp [List.mem_singleton.mp among], reaches⟩
    · obtain ⟨start, among, reaches⟩ := rest.reached other later
      exact ⟨start, List.mem_cons_of_mem stop among, reaches⟩
  starts := by
    intro other member
    rcases List.mem_cons.mp member with rfl | later
    · exact (rest.mem_visited_iff other).mpr (.inr (first.starts other (by simp)))
    · exact rest.starts other later
  closed := by
    intro other member next leads
    rcases List.mem_append.mp member with earlier | later
    · exact (rest.mem_visited_iff next).mpr (.inr (first.closed other earlier next leads))
    · exact rest.closed other later next leads

end Covers

variable {filesystem : Filesystem} {branch : Branch}

theorem stops_cover {depth : Nat}
    (visits : ∀ {record after : Record} {stop : Stop},
      record.visit filesystem branch depth stop = some after →
        ∃ made, Covers filesystem branch record [stop] made after)
    (stops : List Stop) {record after : Record}
    (visited : stops.foldlM (visit filesystem branch depth) record = some after) :
    ∃ made, Covers filesystem branch record stops made after := by
  induction stops generalizing record with
  | nil =>
      cases visited
      exact ⟨[], .nothing _⟩
  | cons stop stops ih =>
      obtain ⟨middle, first, rest⟩ := foldl_m_cons_eq_some visited
      obtain ⟨made, covers⟩ := visits first
      obtain ⟨others, coversRest⟩ := ih rest
      exact ⟨made ++ others, covers.append coversRest⟩

theorem visit_covers {depth : Nat} {record after : Record} {stop : Stop}
    (visited : record.visit filesystem branch depth stop = some after) :
    ∃ made, Covers filesystem branch record [stop] made after := by
  induction depth generalizing record after stop with
  | zero => cases visited
  | succ depth ih =>
      rw [visit] at visited
      split at visited
      · rename_i known
        cases visited
        exact ⟨[], .known known⟩
      · rename_i fresh
        obtain ⟨made, covers⟩ := stops_cover ih _ visited
        exact ⟨stop :: made, covers.anew fresh⟩

end Record

end PathGlob
