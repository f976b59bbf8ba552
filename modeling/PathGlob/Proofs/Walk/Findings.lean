import Mathlib.Data.List.Basic
import Mathlib.Data.List.Nodup
import Mathlib.Data.Prod.Basic
import PathGlob.Proofs.Walk.Coverage

/-!
# The findings of a traversal

Reads the findings of a traversal off the stops it covers. Its paths are the candidates of those
stops that the branch matches, in order and each once over all branches. Its failures are those of
the stops that have one, one for each stop and branch.
-/
namespace PathGlob

set_option autoImplicit false

namespace Finding

def path? : Finding → Option Text
  | .path found => some found
  | .failure _ => none

def failure? : Finding → Option ListingError
  | .path _ => none
  | .failure error => some error

end Finding

def collect (known paths : List Text) : List Text := (distinctFrom id known paths).reverse ++ known

theorem mem_collect_iff (known paths : List Text) (wanted : Text) :
    wanted ∈ collect known paths ↔ wanted ∈ known ∨ wanted ∈ paths := by
  have added := key_mem_distinctFrom id known paths wanted
  rw [List.map_id, List.map_id] at added
  rw [collect, List.mem_append, List.mem_reverse, added]
  by_cases old : wanted ∈ known
  · simp [old]
  · simp [old]

theorem collect_collect (known first second : List Text) :
    collect (collect known first) second = collect known (first ++ second) := by
  have same : ∀ wanted, wanted ∈ collect known first ↔ wanted ∈ first.map id ++ known := by
    intro wanted
    rw [mem_collect_iff, List.map_id, List.mem_append]
    exact or_comm
  rw [collect, distinctFrom_congr same, collect, collect, distinctFrom_append, List.reverse_append,
    List.append_assoc]

def Branch.matchedAt (filesystem : Filesystem) (branch : Branch) (stops : List Stop) : List Text :=
  (stops.flatMap fun stop => (branch.expand filesystem stop).candidates).filter branch.matchesPath

namespace Record

def paths (record : Record) : List Text := record.findings.filterMap (·.1.path?)

def failures (record : Record) : List ListingError := record.findings.filterMap (·.1.failure?)

structure Sound (record : Record) : Prop where
  paths : record.paths = record.handedOut.reverse
  distinct : record.handedOut.Nodup

variable {filesystem : Filesystem} {branch : Branch} {record : Record}

theorem Sound.nodup_paths (sound : record.Sound) : record.paths.Nodup := by
  rw [sound.paths]
  exact List.nodup_reverse.mpr sound.distinct

theorem Sound.mem_paths_iff (sound : record.Sound) (path : Text) :
    path ∈ record.paths ↔ path ∈ record.handedOut := by
  rw [sound.paths, List.mem_reverse]

theorem offer_sound (sound : record.Sound) (path : Text) : (record.offer branch path).Sound := by
  rw [offer]
  split
  · rename_i accepted
    have unseen : path ∉ record.handedOut := by
      rw [Bool.and_eq_true] at accepted
      simpa using accepted.2
    constructor
    · have found := sound.paths
      rw [Record.paths] at found ⊢
      rw [List.filterMap_append, found, List.reverse_cons]
      rfl
    · exact List.nodup_cons.mpr ⟨unseen, sound.distinct⟩
  · exact sound

@[simp] theorem failures_offer (path : Text) :
    (record.offer branch path).failures = record.failures := by
  rw [offer]
  split
  · simp [failures, Finding.failure?]
  · rfl

theorem offers_sound (sound : record.Sound) (paths : List Text) :
    (paths.foldl (offer branch) record).Sound := by
  induction paths generalizing record with
  | nil => exact sound
  | cons path paths ih => exact ih (offer_sound sound path)

theorem handed_out_offers (record : Record) (paths : List Text) :
    (paths.foldl (offer branch) record).handedOut =
      collect record.handedOut (paths.filter branch.matchesPath) := by
  induction paths generalizing record with
  | nil => rfl
  | cons path paths ih =>
      rw [List.foldl_cons, ih, offer, List.filter_cons]
      cases matched : branch.matchesPath path with
      | false => simp
      | true =>
          by_cases known : path ∈ record.handedOut
          · simp [collect, distinctFrom, known]
          · simp [collect, distinctFrom, known]

@[simp] theorem failures_offers (paths : List Text) :
    (paths.foldl (offer branch) record).failures = record.failures := by
  induction paths generalizing record with
  | nil => rfl
  | cons path paths ih => rw [List.foldl_cons, ih, failures_offer]

theorem enter_sound (sound : record.Sound) (stop : Stop) (expansion : Expansion) :
    (record.enter stop expansion).Sound := by
  constructor
  · have found := sound.paths
    rw [Record.paths] at found ⊢
    rw [enter, List.filterMap_append, found]
    cases expansion.failure <;> simp [Finding.path?]
  · exact sound.distinct

theorem failures_make (stop : Stop) (expansion : Expansion) :
    (record.make branch stop expansion).failures = record.failures ++ expansion.failure.toList := by
  rw [make, failures_offers, enter, failures, failures, List.filterMap_append]
  cases expansion.failure <;> simp [Finding.failure?]

theorem make_all_sound (sound : record.Sound) (made : List Stop) :
    (record.makeAll filesystem branch made).Sound := by
  induction made generalizing record with
  | nil => exact sound
  | cons stop made ih => exact ih (offers_sound (enter_sound sound stop _) _)

theorem handed_out_make_all (record : Record) (made : List Stop) :
    (record.makeAll filesystem branch made).handedOut =
      collect record.handedOut (branch.matchedAt filesystem made) := by
  induction made generalizing record with
  | nil => rfl
  | cons stop made ih =>
      rw [makeAll, List.foldl_cons, ← makeAll, ih, make, handed_out_offers, collect_collect,
        Branch.matchedAt, Branch.matchedAt, List.flatMap_cons, List.filter_append]
      rfl

theorem mem_handed_out_make_all_iff (made : List Stop) (wanted : Text) :
    wanted ∈ (record.makeAll filesystem branch made).handedOut ↔
      wanted ∈ record.handedOut ∨
      (∃ stop ∈ made, wanted ∈ (branch.expand filesystem stop).candidates) ∧
        branch.matchesPath wanted = true := by
  rw [handed_out_make_all, mem_collect_iff, Branch.matchedAt, List.mem_filter, List.mem_flatMap]

theorem failures_make_all (made : List Stop) :
    (record.makeAll filesystem branch made).failures =
      record.failures ++ made.filterMap fun stop => (branch.expand filesystem stop).failure := by
  induction made generalizing record with
  | nil => simp [makeAll]
  | cons stop made ih =>
      rw [makeAll, List.foldl_cons, ← makeAll, ih, failures_make, List.filterMap_cons,
        List.append_assoc]
      cases (branch.expand filesystem stop).failure <;> rfl

end Record

namespace Branch

variable (filesystem : Filesystem) (start : Text) (branch : Branch)

def Reaches (stop : Stop) : Prop :=
  Relation.ReflTransGen (branch.Leads filesystem) ⟨branch.base filesystem start, 0⟩ stop

def Finds (path : Text) : Prop :=
  (∃ stop, branch.Reaches filesystem start stop ∧
    path ∈ (branch.expand filesystem stop).candidates) ∧ branch.matchesPath path = true

def FailsAt (stop : Stop) : Prop :=
  branch.Reaches filesystem start stop ∧ ((branch.expand filesystem stop).failure).isSome = true

end Branch

namespace Record

variable {filesystem : Filesystem} {branch : Branch} {start : Text} {depth : Nat}

/-- Following a branch makes the stops that it reaches, each once. -/
theorem follow_makes {record after : Record}
    (followed : record.follow filesystem start depth branch = some after) :
    ∃ made, made.Nodup ∧ (∀ stop, stop ∈ made ↔ branch.Reaches filesystem start stop) ∧
      after = { record with visited := [] }.makeAll filesystem branch made := by
  obtain ⟨made, covers⟩ := visit_covers followed
  have onlyMade : ∀ stop, stop ∈ after.visited → stop ∈ made := by
    intro stop visited
    simpa using (covers.mem_visited_iff stop).mp visited
  refine ⟨made, covers.distinct, ?_, covers.makes⟩
  intro stop
  constructor
  · intro member
    obtain ⟨first, isBase, reaches⟩ := covers.reached stop member
    rw [List.mem_singleton] at isBase
    subst isBase
    exact reaches
  · intro reaches
    induction reaches with
    | refl => exact onlyMade _ (covers.starts _ (by simp))
    | tail _ leads ih => exact onlyMade _ (covers.closed _ ih _ leads)

theorem follow_sound {record after : Record} (sound : record.Sound)
    (followed : record.follow filesystem start depth branch = some after) : after.Sound := by
  obtain ⟨made, -, -, rfl⟩ := follow_makes followed
  have cleared : ({ record with visited := [] } : Record).Sound := ⟨sound.paths, sound.distinct⟩
  exact make_all_sound cleared made

theorem mem_handed_out_follow_iff {record after : Record}
    (followed : record.follow filesystem start depth branch = some after) (wanted : Text) :
    wanted ∈ after.handedOut ↔
      wanted ∈ record.handedOut ∨ branch.Finds filesystem start wanted := by
  obtain ⟨made, -, reached, rfl⟩ := follow_makes followed
  rw [mem_handed_out_make_all_iff, Branch.Finds]
  simp only [reached]

theorem failures_follow {record after : Record}
    (followed : record.follow filesystem start depth branch = some after) :
    ∃ failing : List Stop, failing.Nodup ∧
      (∀ stop, stop ∈ failing ↔ branch.FailsAt filesystem start stop) ∧
      after.failures.length = record.failures.length + failing.length := by
  obtain ⟨made, distinct, reached, rfl⟩ := follow_makes followed
  refine ⟨made.filter fun stop => (branch.expand filesystem stop).failure.isSome,
    distinct.filter _, ?_, ?_⟩
  · intro stop
    rw [List.mem_filter, reached, Branch.FailsAt]
  · rw [failures_make_all, List.length_append, List.length_filterMap_eq_countP,
      List.countP_eq_length_filter]
    rfl

variable {branches : List Branch}

theorem branches_sound {record after : Record} (sound : record.Sound)
    (followed : branches.foldlM (follow filesystem start depth) record = some after) :
    after.Sound := by
  induction branches generalizing record with
  | nil =>
      cases followed
      exact sound
  | cons branch branches ih =>
      obtain ⟨middle, first, rest⟩ := foldl_m_cons_eq_some followed
      exact ih (follow_sound sound first) rest

theorem mem_handed_out_branches_iff {record after : Record}
    (followed : branches.foldlM (follow filesystem start depth) record = some after)
    (wanted : Text) :
    wanted ∈ after.handedOut ↔
      wanted ∈ record.handedOut ∨ ∃ branch ∈ branches, branch.Finds filesystem start wanted := by
  induction branches generalizing record with
  | nil =>
      cases followed
      simp
  | cons branch branches ih =>
      obtain ⟨middle, first, rest⟩ := foldl_m_cons_eq_some followed
      rw [ih rest, mem_handed_out_follow_iff first, List.exists_mem_cons_iff, or_assoc]

theorem failures_branches {record after : Record}
    (followed : branches.foldlM (follow filesystem start depth) record = some after) :
    ∃ failing : List (Nat × Stop), failing.Nodup ∧
      (∀ number stop, (number, stop) ∈ failing ↔
        ∃ branch, branches[number]? = some branch ∧ branch.FailsAt filesystem start stop) ∧
      after.failures.length = record.failures.length + failing.length := by
  induction branches generalizing record with
  | nil =>
      cases followed
      exact ⟨[], List.nodup_nil, by simp, by simp⟩
  | cons branch branches ih =>
      obtain ⟨middle, first, rest⟩ := foldl_m_cons_eq_some followed
      obtain ⟨here, hereDistinct, hereFails, hereCount⟩ := failures_follow first
      obtain ⟨later, laterDistinct, laterFails, laterCount⟩ := ih rest
      refine ⟨here.map (Prod.mk 0) ++ later.map (Prod.map (· + 1) id), ?_, ?_, ?_⟩
      · rw [List.nodup_append]
        refine ⟨hereDistinct.map (Prod.mk_right_injective 0), laterDistinct.map ?_, ?_⟩
        · exact Function.Injective.prodMap (fun _ _ => Nat.succ.inj) Function.injective_id
        · intro one inHere other inLater same
          obtain ⟨stop, -, rfl⟩ := List.mem_map.mp inHere
          obtain ⟨pair, -, rfl⟩ := List.mem_map.mp inLater
          cases same
      · intro number stop
        rw [List.mem_append, List.mem_map, List.mem_map]
        cases number with
        | zero => simp [hereFails]
        | succ number => simp [laterFails, Prod.exists]
      · rw [laterCount, hereCount]
        simp
        omega

end Record

namespace Pattern

variable {filesystem : Filesystem} {pattern : Pattern} {path : Text} {depth : Nat} {record : Record}

/-- The paths of a traversal are what some branch finds, each of them once. -/
theorem traverse_paths (traversed : pattern.traverse filesystem path depth = some record) :
    record.paths.Nodup ∧ ∀ wanted, wanted ∈ record.paths ↔
      ∃ branch ∈ pattern.branches,
        branch.Finds filesystem (Walk.startIn filesystem path) wanted := by
  have nothing : ({} : Record).Sound := ⟨rfl, List.nodup_nil⟩
  have sound := Record.branches_sound nothing traversed
  refine ⟨sound.nodup_paths, fun wanted => ?_⟩
  rw [sound.mem_paths_iff, Record.mem_handed_out_branches_iff traversed]
  simp

theorem traverse_failures (traversed : pattern.traverse filesystem path depth = some record) :
    ∃ failing : List (Nat × Stop), failing.Nodup ∧
      (∀ number stop, (number, stop) ∈ failing ↔
        ∃ branch, pattern.branches[number]? = some branch ∧
          branch.FailsAt filesystem (Walk.startIn filesystem path) stop) ∧
      record.failures.length = failing.length := by
  obtain ⟨failing, distinct, fails, count⟩ := Record.failures_branches traversed
  refine ⟨failing, distinct, fails, count.trans ?_⟩
  simp [Record.failures]

end Pattern

end PathGlob
