import PathGlob.Proofs.Walk.Findings
import PathGlob.Proofs.Walk.Refinement
import PathGlob.Proofs.Walk.Termination

/-!
# What a walk has read so far

However far a walk has come, each directory that it has read goes on the account of a branch and a
stop. No account is opened twice, since a branch begins once and makes no stop twice; each is for a
stop that the branch reaches; and what was read for them, one after the other, is all that was read.
-/
namespace PathGlob

set_option autoImplicit false

def Pattern.readFor (pattern : Pattern) (filesystem : Filesystem) (account : Nat × Stop) :
    List Text :=
  match pattern.branches[account.1]? with
  | none => []
  | some branch => (branch.expand filesystem account.2).read

structure Trail.Accounted (filesystem : Filesystem) (pattern : Pattern) (start : Text)
    (accounts : List (Nat × Stop)) (number : Nat) (trail : Trail) : Prop where
  branch : pattern.branches[number]? = some trail.branch
  behind : ∀ stop, (number, stop) ∈ accounts ↔ stop ∈ trail.behind
  ahead : ∀ stop ∈ trail.ahead, trail.branch.Reaches filesystem start stop

structure Walk.Accounted (filesystem : Filesystem) (pattern : Pattern) (start : Text)
    (accounts : List (Nat × Stop)) (begun : Nat) (walk : Walk) : Prop where
  started : walk.start = start
  waiting : walk.waiting = pattern.branches.drop begun
  distinct : accounts.Nodup
  opened : ∀ account ∈ accounts, account.1 < begun
  reached : ∀ account ∈ accounts, ∃ branch,
    pattern.branches[account.1]? = some branch ∧ branch.Reaches filesystem start account.2
  read : walk.read = accounts.flatMap (pattern.readFor filesystem)
  trail : ∀ trail ∈ walk.trail, ∃ number, begun = number + 1 ∧
    trail.Accounted filesystem pattern start accounts number

variable {filesystem : Filesystem} {pattern : Pattern} {start : Text} {accounts : List (Nat × Stop)}

/-- A fresh stop opens an account, and the stops that it leads to are reached as well. -/
theorem Trail.Accounted.visit {trail : Trail} {number : Nat} {stop : Stop} {ahead : List Stop}
    (accounted : trail.Accounted filesystem pattern start accounts number)
    (next : trail.ahead = stop :: ahead) (fresh : stop ∉ trail.behind) :
    ({ trail with ahead }.visit filesystem stop).trail.Accounted filesystem pattern start
      (accounts ++ [(number, stop)]) number := by
  have reached := List.forall_mem_cons.mp (next ▸ accounted.ahead)
  rw [Trail.visit_fresh { trail with ahead } filesystem fresh]
  constructor
  · exact accounted.branch
  · intro other
    rw [List.mem_append, accounted.behind, List.mem_singleton, Prod.mk.injEq, and_iff_right rfl]
    exact or_comm.trans List.mem_cons.symm
  · intro other member
    rcases List.mem_append.mp member with leads | later
    · exact reached.1.tail leads
    · exact reached.2 other later

namespace Walk

variable {walk next : Walk} {begun : Nat}

theorem Accounted.visited {trail : Trail} {stop : Stop} {ahead : List Stop}
    (accounted : walk.Accounted filesystem pattern start accounts begun)
    (amid : walk.trail = some trail)
    (following : trail.ahead = stop :: ahead) :
    ∃ accounts, ({ walk with
      trail := some ({ trail with ahead }.visit filesystem stop).trail
      read := walk.read ++ ({ trail with ahead }.visit filesystem stop).read } : Walk).Accounted
        filesystem pattern start accounts begun := by
  obtain ⟨number, rfl, ofTrail⟩ := accounted.trail trail amid
  have reached := List.forall_mem_cons.mp (following ▸ ofTrail.ahead)
  by_cases known : stop ∈ trail.behind
  · rw [Trail.visit_known { trail with ahead } filesystem known]
    refine ⟨accounts, accounted.started, accounted.waiting, accounted.distinct, accounted.opened,
      accounted.reached, by simpa using accounted.read, ?_⟩
    intro other same
    cases same
    exact ⟨number, rfl, ofTrail.branch, ofTrail.behind, reached.2⟩
  · have unknown : (number, stop) ∉ accounts := mt (ofTrail.behind stop).mp known
    have readHere : pattern.readFor filesystem (number, stop) =
        ({ trail with ahead }.visit filesystem stop).read := by
      rw [Trail.visit_fresh { trail with ahead } filesystem known, Pattern.readFor, ofTrail.branch]
      rfl
    refine ⟨accounts ++ [(number, stop)], accounted.started, accounted.waiting, ?_, ?_, ?_, ?_, ?_⟩
    · rw [List.nodup_append_comm]
      exact List.nodup_cons.mpr ⟨unknown, accounted.distinct⟩
    · intro account member
      rcases List.mem_append.mp member with earlier | last
      · exact accounted.opened account earlier
      · rw [List.mem_singleton.mp last]
        exact Nat.lt_succ_self number
    · intro account member
      rcases List.mem_append.mp member with earlier | last
      · exact accounted.reached account earlier
      · rw [List.mem_singleton.mp last]
        exact ⟨trail.branch, ofTrail.branch, reached.1⟩
    · rw [List.flatMap_append, List.flatMap_singleton, readHere, ← accounted.read]
    · intro other same
      cases same
      exact ⟨number, rfl, ofTrail.visit following known⟩

theorem Accounted.moved (accounted : walk.Accounted filesystem pattern start accounts begun)
    (moves : walk.Moved filesystem next) :
    ∃ accounts begun, next.Accounted filesystem pattern start accounts begun := by
  cases moves with
  | @begun branch waiting idle following =>
      have dropped : pattern.branches.drop begun = branch :: waiting :=
        accounted.waiting.symm.trans following
      have numbered : pattern.branches[begun]? = some branch := by
        rw [← List.head?_drop, dropped]
        rfl
      have others : waiting = pattern.branches.drop (begun + 1) := by
        rw [← List.tail_drop, dropped]
        rfl
      have base : walk.base filesystem branch = branch.base filesystem start := by
        rw [Walk.base, accounted.started]
        rfl
      refine ⟨accounts, begun + 1, accounted.started, others, accounted.distinct, ?_,
        accounted.reached,
        accounted.read, ?_⟩
      · exact fun account member => Nat.lt_succ_of_lt (accounted.opened account member)
      · intro trail same
        cases same
        refine ⟨begun, rfl, numbered, ?_, ?_⟩
        · intro stop
          have unopened : (begun, stop) ∉ accounts := fun member =>
            absurd (accounted.opened _ member) (Nat.lt_irrefl begun)
          simp [Trail.start, unopened]
        · intro stop member
          rw [List.mem_singleton.mp member, base]
          exact .refl
  | @checked trail path finds handedOut amid pending =>
      refine ⟨accounts, begun, accounted.started, accounted.waiting, accounted.distinct,
        accounted.opened,
        accounted.reached, accounted.read, ?_⟩
      intro other same
      cases same
      obtain ⟨number, rfl, ofTrail⟩ := accounted.trail trail amid
      exact ⟨number, rfl, ofTrail.branch, ofTrail.behind, ofTrail.ahead⟩
  | visited amid following =>
      obtain ⟨accounts, kept⟩ := accounted.visited amid following
      exact ⟨accounts, begun, kept⟩
  | ended =>
      exact ⟨accounts, begun, accounted.started, accounted.waiting, accounted.distinct,
        accounted.opened,
        accounted.reached, accounted.read, by simp⟩

/-- At any time, what a walk has read is what was read for accounts of stops that were reached. -/
theorem read_accounted {last : Walk} {items : List (Finding × Walk)} {path : Text}
    (runs : Step.Runs (step filesystem) (begin pattern filesystem path) items last) :
    ∃ accounts : List (Nat × Stop), accounts.Nodup ∧
      (∀ account ∈ accounts, ∃ branch, pattern.branches[account.1]? = some branch ∧
        branch.Reaches filesystem (startIn filesystem path) account.2) ∧
      last.read = accounts.flatMap (pattern.readFor filesystem) := by
  have starts :
      (begin pattern filesystem path).Accounted filesystem pattern (startIn filesystem path) [] 0 :=
    ⟨rfl, rfl, List.nodup_nil, by simp, by simp, rfl, by simp [begin]⟩
  have kept : ∀ walk next : Walk,
      (∃ accounts begun,
        walk.Accounted filesystem pattern (startIn filesystem path) accounts begun) →
        walk.Moved filesystem next →
          ∃ accounts begun,
            next.Accounted filesystem pattern (startIn filesystem path) accounts begun := by
    intro walk next before moves
    obtain ⟨accounts, begun, accounted⟩ := before
    exact accounted.moved moves
  obtain ⟨accounts, begun, accounted⟩ := runs_keep kept runs ⟨[], 0, starts⟩
  exact ⟨accounts, accounted.distinct, accounted.reached, accounted.read⟩

end Walk

end PathGlob
