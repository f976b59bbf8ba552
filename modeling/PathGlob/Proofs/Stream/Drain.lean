import PathGlob.Stream

/-!
# Sequences pulled to the end

Pulling a sequence to its end hands out items one by one, and the state behind each of them can be
looked at before the next pull. `Drains` says which items and states these are. They do not depend
on how often a budget runs out, and are put together from runs of single steps.
-/
namespace PathGlob.Step

set_option autoImplicit false

variable {State Item : Type}

/-- Items pulled until the sequence is over, each with the state behind it, and the last state. -/
inductive Drains (step : State → Step State Item) : State → List (Item × State) → State → Prop where
  | done {state last : State} {budget : Nat} (pulled : pull step budget state = .over last) :
      Drains step state [] last
  | item {state next last : State} {produced : Item} {items : List (Item × State)} {budget : Nat}
      (pulled : pull step budget state = .item produced next) (more : Drains step next items last) :
      Drains step state ((produced, next) :: items) last

inductive Runs (step : State → Step State Item) : State → List (Item × State) → State → Prop where
  | here (state : State) : Runs step state [] state
  | silent {state next last : State} {items : List (Item × State)}
      (moves : step state = .silent next) (more : Runs step next items last) :
      Runs step state items last
  | item {state next last : State} {produced : Item} {items : List (Item × State)}
      (moves : step state = .item produced next) (more : Runs step next items last) :
      Runs step state ((produced, next) :: items) last

variable {step : State → Step State Item}

theorem Runs.trans {first middle last : State} {items others : List (Item × State)}
    (earlier : Runs step first items middle) (later : Runs step middle others last) :
    Runs step first (items ++ others) last := by
  induction earlier with
  | here => exact later
  | silent moves _ ih => exact .silent moves (ih later)
  | item moves _ ih => exact .item moves (ih later)

/-- Two sequences that step alike wherever a run can come to run alike. -/
theorem Runs.of_same {other : State → Step State Item} (good : State → Prop)
    (same : ∀ state, good state → step state = other state)
    (silent : ∀ state next, good state → step state = .silent next → good next)
    (item : ∀ state produced next, good state → step state = .item produced next → good next)
    {state last : State} {items : List (Item × State)} (starts : good state) :
    Runs step state items last ↔ Runs other state items last := by
  constructor
  · intro runs
    induction runs with
    | here => exact .here _
    | silent moves _ ih => exact .silent (same _ starts ▸ moves) (ih (silent _ _ starts moves))
    | item moves _ ih => exact .item (same _ starts ▸ moves) (ih (item _ _ _ starts moves))
  · intro runs
    induction runs with
    | here => exact .here _
    | silent moves _ ih =>
        rw [← same _ starts] at moves
        exact .silent moves (ih (silent _ _ starts moves))
    | item moves _ ih =>
        rw [← same _ starts] at moves
        exact .item moves (ih (item _ _ _ starts moves))

theorem pull_of_silent {state next : State} (moves : step state = .silent next) (budget : Nat) :
    pull step (budget + 1) state = pull step budget next := by
  rw [pull, moves]

theorem Drains.of_silent {state next last : State} {items : List (Item × State)}
    (moves : step state = .silent next) (drains : Drains step next items last) :
    Drains step state items last := by
  cases drains with
  | done pulled => exact .done ((pull_of_silent moves _).trans pulled)
  | item pulled more => exact .item ((pull_of_silent moves _).trans pulled) more

theorem Runs.drains {state last : State} {items : List (Item × State)}
    (runs : Runs step state items last) (ended : step last = .over) :
    Drains step state items last := by
  induction runs with
  | here state =>
      have pulled : pull step 1 state = .over state := by rw [pull, ended]
      exact .done pulled
  | silent moves _ ih => exact .of_silent moves (ih ended)
  | @item state next last produced items moves _ ih =>
      have pulled : pull step 1 state = .item produced next := by rw [pull, moves]
      exact .item pulled (ih ended)

theorem runs_of_pull {state next : State} {budget : Nat} {produced : Item}
    {items : List (Item × State)} {last : State}
    (pulled : pull step budget state = .item produced next) (more : Runs step next items last) :
    Runs step state ((produced, next) :: items) last := by
  induction budget generalizing state with
  | zero => cases pulled
  | succ budget ih =>
      rw [pull] at pulled
      cases moves : step state with
      | item other following =>
          rw [moves] at pulled
          cases pulled
          exact .item moves more
      | silent following =>
          rw [moves] at pulled
          exact .silent moves (ih pulled)
      | «over» =>
          rw [moves] at pulled
          cases pulled

theorem runs_of_pull_over {state last : State} {budget : Nat}
    (pulled : pull step budget state = .over last) :
    Runs step state [] last ∧ step last = .over := by
  induction budget generalizing state with
  | zero => cases pulled
  | succ budget ih =>
      rw [pull] at pulled
      cases moves : step state with
      | item other following =>
          rw [moves] at pulled
          cases pulled
      | silent following =>
          rw [moves] at pulled
          exact ⟨.silent moves (ih pulled).1, (ih pulled).2⟩
      | «over» =>
          rw [moves] at pulled
          cases pulled
          exact ⟨.here _, moves⟩

theorem Drains.runs {state last : State} {items : List (Item × State)}
    (drains : Drains step state items last) : Runs step state items last ∧ step last = .over := by
  induction drains with
  | done pulled => exact runs_of_pull_over pulled
  | item pulled _ ih => exact ⟨runs_of_pull pulled ih.1, ih.2⟩

theorem pull_add {state : State} {budget : Nat}
    (settled : ∀ next, pull step budget state ≠ .paused next) (extra : Nat) :
    pull step (budget + extra) state = pull step budget state := by
  induction budget generalizing state with
  | zero => exact absurd rfl (settled state)
  | succ budget ih =>
      rw [Nat.add_right_comm, pull, pull]
      cases moves : step state with
      | silent next =>
          apply ih
          intro later paused
          exact settled later ((pull_of_silent moves budget).trans paused)
      | _ => rfl

end PathGlob.Step
