/-!
# Sequences made on demand

A sequence is a state and a step. A step hands out an item, only moves on, or says that the sequence
is over. `pull` takes steps until an item comes up or the sequence is over, within a budget; when
the budget runs out, pulling can go on from the state that was reached.
-/
namespace PathGlob

set_option autoImplicit false

inductive Step (State Item : Type) where
  | item (item : Item) (next : State)
  | silent (next : State)
  | over
  deriving Repr

inductive Pull (State Item : Type) where
  | item (item : Item) (next : State)
  | over (last : State)
  | paused (next : State)
  deriving Repr

namespace Step

variable {State Item : Type}

/-- Takes steps up to the next item. -/
def pull (step : State → Step State Item) : Nat → State → Pull State Item
  | 0, state => .paused state
  | budget + 1, state =>
    match step state with
    | .item produced next => .item produced next
    | .silent next => pull step budget next
    | .over => .over state

end Step

end PathGlob
