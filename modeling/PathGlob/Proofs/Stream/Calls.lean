import PathGlob.Proofs.Stream.Drain

/-!
# Calls made one after the other

Whoever uses a sequence calls for the next item again and again, perhaps also after its end. Each
call goes on from where the one before it stopped. A sequence that can be drained answers every such
call within one and the same budget: first its items in order, then always that it is over.
-/
namespace PathGlob

set_option autoImplicit false

variable {State Item : Type}

def Pull.state : Pull State Item → State
  | .item _ next => next
  | .over last => last
  | .paused next => next

namespace Step

/-- What a call comes to behind `number` others, each of them within the budget. -/
def call (step : State → Step State Item) (budget : Nat) : Nat → State → Pull State Item
  | 0, state => pull step budget state
  | number + 1, state => call step budget number (pull step budget state).state

variable {step : State → Step State Item}

theorem pull_of_le {state : State} {budget larger : Nat} {result : Pull State Item}
    (pulled : pull step budget state = result) (settled : ∀ next, result ≠ .paused next)
    (larger_le : budget ≤ larger) : pull step larger state = result := by
  rcases Nat.exists_eq_add_of_le larger_le with ⟨extra, rfl⟩
  subst pulled
  exact pull_add settled extra

theorem pull_of_over {last : State} (ended : step last = .over) {budget : Nat}
    (positive : 0 < budget) :
    pull step budget last = .over last := by
  have first : pull step 1 last = .over last := by rw [pull, ended]
  exact pull_of_le first (by simp) positive

theorem call_of_over {last : State} (ended : step last = .over) {budget : Nat}
    (positive : 0 < budget) (number : Nat) : call step budget number last = .over last := by
  induction number with
  | zero => exact pull_of_over ended positive
  | succ number ih => rwa [call, pull_of_over ended positive]

/-- With enough budget, calls hand out the items in order and then say that the sequence is over. -/
theorem Drains.calls {state last : State} {items : List (Item × State)}
    (drains : Drains step state items last) :
    ∃ enough, ∀ budget, enough ≤ budget → ∀ number, call step budget number state =
      items[number]?.elim (.over last) fun (produced, next) => .item produced next := by
  induction drains with
  | @done state last budget pulled =>
      have ended := (runs_of_pull_over pulled).2
      refine ⟨max budget 1, fun larger enough number => ?_⟩
      rcases Nat.max_le.mp enough with ⟨reached, positive⟩
      have first := pull_of_le pulled (by simp) reached
      cases number with
      | zero => exact first
      | succ number =>
          rw [call, first]
          exact call_of_over ended positive number
  | @item state next last produced items budget pulled _ ih =>
      rcases ih with ⟨later, calls⟩
      refine ⟨max budget later, fun larger enough number => ?_⟩
      rcases Nat.max_le.mp enough with ⟨reached, others⟩
      have first := pull_of_le pulled (by simp) reached
      cases number with
      | zero => exact first
      | succ number =>
          rw [call, first]
          exact calls larger others number

theorem Runs.preserves {good : State → Prop}
    (silent : ∀ state next, good state → step state = .silent next → good next)
    (item : ∀ state produced next, good state → step state = .item produced next → good next)
    {state last : State} {items : List (Item × State)} (runs : Runs step state items last)
    (starts : good state) : good last := by
  induction runs with
  | here => exact starts
  | silent moves _ ih => exact ih (silent _ _ starts moves)
  | item moves _ ih => exact ih (item _ _ _ starts moves)

end Step

end PathGlob
