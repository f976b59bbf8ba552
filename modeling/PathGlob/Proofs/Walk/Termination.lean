import PathGlob.Proofs.Pattern.Built
import PathGlob.Proofs.Stream.Calls
import PathGlob.Proofs.Walk.Extent

/-!
# Walks end, cycles or not

A filesystem may answer with directories that were listed before, or with those above the one asked
about. A walk inside a territory still answers every call and comes to its end: behind a stop that
was made, the same stop comes to nothing. On the way no component is asked for that the branch does
not have. That is an invariant of the stops ahead, shown of the few ways in which a step moves a
walk.
-/
namespace PathGlob

set_option autoImplicit false

variable {filesystem : Filesystem}

namespace Walk

inductive Moved (filesystem : Filesystem) (walk : Walk) : Walk → Prop where
  | begun {branch : Branch} {waiting : List Branch} (idle : walk.trail = none)
      (next : walk.waiting = branch :: waiting) :
      Moved filesystem walk
        { walk with waiting, trail := some (.start branch (walk.base filesystem branch)) }
  | checked {trail : Trail} {path : Text} {finds : List Text} (handedOut : List Text)
      (amid : walk.trail = some trail) (pending : trail.finds = path :: finds) :
      Moved filesystem walk { walk with trail := some { trail with finds }, handedOut }
  | visited {trail : Trail} {stop : Stop} {ahead : List Stop} (amid : walk.trail = some trail)
      (next : trail.ahead = stop :: ahead) :
      Moved filesystem walk
        { walk with
          trail := some ({ trail with ahead }.visit filesystem stop).trail
          read := walk.read ++ ({ trail with ahead }.visit filesystem stop).read }
  | ended {trail : Trail} (amid : walk.trail = some trail) :
      Moved filesystem walk { walk with trail := none }

theorem step_moved (walk : Walk) :
    (∀ next, step filesystem walk = .silent next → walk.Moved filesystem next) ∧
      ∀ finding next, step filesystem walk = .item finding next → walk.Moved filesystem next := by
  rw [step]
  cases amid : walk.trail with
  | none =>
      cases waiting : walk.waiting with
      | nil => simp
      | cons branch others =>
          simp only [Step.silent.injEq, reduceCtorEq, false_implies, implies_true, and_true]
          intro next same
          exact same ▸ .begun amid waiting
  | some trail =>
      dsimp only
      split
      · rename_i path finds pending
        split
        · simp only [Step.item.injEq, reduceCtorEq, false_implies, implies_true, true_and]
          intro finding next same
          exact same.2 ▸ .checked _ amid pending
        · simp only [Step.silent.injEq, reduceCtorEq, false_implies, implies_true, and_true]
          intro next same
          exact same ▸ .checked _ amid pending
      · rename_i stop ahead settled following
        split
        · simp only [Step.item.injEq, reduceCtorEq, false_implies, implies_true, true_and]
          intro finding next same
          exact same.2 ▸ .visited amid following
        · simp only [Step.silent.injEq, reduceCtorEq, false_implies, implies_true, and_true]
          intro next same
          exact same ▸ .visited amid following
      · simp only [Step.silent.injEq, reduceCtorEq, false_implies, implies_true, and_true]
        intro next same
        exact same ▸ .ended amid

theorem runs_keep {good : Walk → Prop}
    (kept : ∀ walk next, good walk → walk.Moved filesystem next → good next) {walk last : Walk}
    {items : List (Finding × Walk)} (runs : Step.Runs (step filesystem) walk items last)
    (starts : good walk) : good last := by
  apply runs.preserves _ _ starts
  · intro state next now moves
    exact kept state next now ((step_moved state).1 next moves)
  · intro state finding next now moves
    exact kept state next now ((step_moved state).2 finding next moves)

end Walk

def Trail.Aimed (trail : Trail) : Prop :=
  ∀ stop ∈ trail.ahead, stop.index < trail.branch.selectors.length

structure Walk.Aimed (walk : Walk) : Prop where
  waiting : ∀ branch ∈ walk.waiting, branch.selectors ≠ []
  trail : ∀ trail ∈ walk.trail, trail.Aimed

theorem Branch.index_lt_of_leads {branch : Branch} {stop next : Stop}
    (leads : branch.Leads filesystem stop next) : next.index < branch.selectors.length := by
  cases leads_by leads with
  | literal _ inner => exact inner
  | named _ inner => exact inner
  | below selects => exact (List.getElem?_eq_some_iff.mp selects).1
  | onward _ inner => exact inner

theorem Branch.Parsed.selectors_ne_nil {branch : Branch} (parsed : branch.Parsed) :
    branch.selectors ≠ [] := by
  rcases List.exists_cons_of_ne_nil parsed.proper.nonempty with ⟨component, components, same⟩
  rw [Branch.selectors, same]
  exact List.cons_ne_nil _ _

theorem Trail.Aimed.visit {trail : Trail} (aimed : trail.Aimed) (stop : Stop) :
    (trail.visit filesystem stop).trail.Aimed := by
  by_cases known : stop ∈ trail.behind
  · rw [visit_known trail filesystem known]
    exact aimed
  · rw [visit_fresh trail filesystem known]
    intro next member
    rcases List.mem_append.mp member with leads | earlier
    · exact Branch.index_lt_of_leads leads
    · exact aimed next earlier

theorem Walk.Aimed.moved {walk next : Walk} (aimed : walk.Aimed)
    (moves : walk.Moved filesystem next) :
    next.Aimed := by
  cases moves with
  | @begun branch waiting _ following =>
      have nonempty := List.forall_mem_cons.mp (following ▸ aimed.waiting)
      refine ⟨nonempty.2, ?_⟩
      intro trail began stop member
      cases began
      rw [List.mem_singleton.mp member]
      exact List.length_pos_iff.mpr nonempty.1
  | @checked trail path finds _ amid =>
      refine ⟨aimed.waiting, ?_⟩
      intro other same
      cases same
      exact aimed.trail trail amid
  | @visited trail stop ahead amid following =>
      refine ⟨aimed.waiting, ?_⟩
      intro other same
      cases same
      have before := aimed.trail trail amid
      rw [Trail.Aimed, following] at before
      have others : ({ trail with ahead } : Trail).Aimed := (List.forall_mem_cons.mp before).2
      exact others.visit stop
  | ended => exact ⟨aimed.waiting, by simp⟩

namespace Walk

/--
Inside a territory, which may be full of cycles, every call returns: the first calls hand out the
items of the walk, one each, and all later ones say that it is over. Whatever stop is ahead on the
way, its branch has the component that will be matched there.
-/
theorem calls_end {pattern : Pattern} (built : pattern.Built) {start : Text} {inside : List Text}
    (territory : filesystem.Territory pattern start inside) :
    (∃ (enough : Nat) (items : List (Finding × Walk)) (last : Walk), ∀ budget, enough ≤ budget →
      ∀ number, Step.call (step filesystem) budget number (begin pattern filesystem start) =
        items[number]?.elim (.over last) fun (finding, next) => .item finding next) ∧
    ∀ items last, Step.Runs (step filesystem) (begin pattern filesystem start) items last →
      ∀ trail ∈ last.trail, ∀ stop ∈ trail.ahead,
        ∃ selector, trail.branch.selectors[stop.index]? = some selector := by
  constructor
  · rcases Pattern.traverse_ends territory (Nat.lt_succ_self _) with ⟨record, traversed⟩
    rcases drains_of_traverse traversed with ⟨items, last, drains, -⟩
    rcases drains.calls with ⟨enough, calls⟩
    exact ⟨enough, items, last, calls⟩
  · intro items last runs trail amid stop member
    have starts : (begin pattern filesystem start).Aimed :=
      ⟨fun branch among => (built.proper.parsed branch among).selectors_ne_nil, by simp [begin]⟩
    have aimed := runs_keep (fun walk next => Aimed.moved) runs starts
    exact ⟨_, List.getElem?_eq_getElem (aimed.trail trail amid stop member)⟩

end Walk

def Filesystem.cyclic : Filesystem where
  root := ['/']
  workingDirectory := ['/', 'a']
  isFile path := path == ['/', 'a', '/', 'b']
  isDirectory path := path == ['/'] || path == ['/', 'a']
  files directory := ⟨[directory], .ok [['/', 'a', '/', 'b']]⟩
  directories directory := ⟨[directory], .ok [['/'], ['/', 'a']]⟩
  entries directory := ⟨[directory], .ok [['/'], ['/', 'a'], ['/', 'a', '/', 'b']]⟩

/-- The pattern `**;/a/**` from inside the cycle. -/
theorem Walk.calls_end_on_cycle :
    ∃ pattern,
      Pattern.compile .lenient ['*', '*', ';', '/', 'a', '/', '*', '*'] .sensitive = .ok pattern ∧
      ∃ (enough : Nat) (items : List (Finding × Walk)) (last : Walk), ∀ budget, enough ≤ budget →
        ∀ number, Step.call (step .cyclic) budget number (begin pattern .cyclic []) =
          items[number]?.elim (.over last) fun (finding, next) => .item finding next := by
  have compiled : Pattern.compile .lenient ['*', '*', ';', '/', 'a', '/', '*', '*'] .sensitive = .ok
      ⟨[⟨⟨false, [.globstar]⟩, .sensitive⟩,
        ⟨⟨true, [.literal ['a'], .globstar]⟩, .sensitive⟩]⟩ := by decide +kernel
  have territory : Filesystem.cyclic.Territory
      ⟨[⟨⟨false, [.globstar]⟩, .sensitive⟩, ⟨⟨true, [.literal ['a'], .globstar]⟩, .sensitive⟩]⟩ []
      [['/'], ['/', 'a']] := by
    constructor
    · decide
    · intro directory _ directories listed
      cases listed
      exact List.Subset.refl _
    · intro branch _ name _ directory _ found
      simpa [Filesystem.cyclic] using found
  exact ⟨_, compiled, (calls_end (.compiled compiled) territory).1⟩

end PathGlob
