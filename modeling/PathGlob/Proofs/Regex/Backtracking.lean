import PathGlob.Proofs.Regex.Language

/-!
# The search as backtracking

`Language` says which texts an expression takes, this module in which order the search tries them.
Dropping all but the preferred thread at each position never changes what comes first, as long as
what follows does not depend on what was reported: a row of expressions is then followed one after
the other, each thread of the first tried in turn until the others lead to an end. Expressions
without names report nothing, so their threads are told apart by the text that they take.
-/
namespace PathGlob.Regex

set_option autoImplicit false

namespace Thread

def skip (thread : Thread) (count : Nat) : Thread :=
  ⟨thread.offset + count, thread.rest.drop count, thread.captures⟩

@[simp] theorem skip_offset (thread : Thread) (count : Nat) :
    (thread.skip count).offset = thread.offset + count := rfl

@[simp] theorem skip_rest (thread : Thread) (count : Nat) :
    (thread.skip count).rest = thread.rest.drop count := rfl

@[simp] theorem skip_captures (thread : Thread) (count : Nat) :
    (thread.skip count).captures = thread.captures := rfl

@[simp] theorem skip_zero (thread : Thread) : thread.skip 0 = thread := rfl

theorem skip_skip (thread : Thread) (count more : Nat) :
    (thread.skip count).skip more = thread.skip (count + more) := by
  simp [skip, Nat.add_assoc, List.drop_drop]

theorem skip_rest_eq {thread : Thread} {taken after : Text} (rest : thread.rest = taken ++ after) :
    (thread.skip taken.length).rest = after := by
  rw [skip_rest, rest, List.drop_left]

theorem skip_of_moves {thread later : Thread} {taken : Text} (moved : thread.Moves later taken)
    (captures : later.captures = thread.captures) : later = thread.skip taken.length := by
  obtain ⟨offset, rest, reported⟩ := later
  cases captures
  rw [skip, ← moved.2, moved.1, List.drop_left]

def front (thread : Thread) : Text := List.replicate thread.offset ' '

theorem length_front (thread : Thread) : thread.front.length = thread.offset :=
  List.length_replicate

theorem take_eq (accepts : Char → Bool) (thread : Thread) :
    thread.take accepts = if thread.rest.head?.any accepts then [thread.skip 1] else [] := by
  obtain ⟨offset, rest, captures⟩ := thread
  cases rest <;> rfl

end Thread

section Silence

def Silent (threads : Thread → List Thread) : Prop :=
  ∀ thread, ∀ later ∈ threads thread, later.captures = thread.captures

variable {first second : Thread → List Thread}

theorem Silent.distinct (silent : Silent first) :
    Silent fun thread => Thread.distinct (first thread) :=
  fun thread later member =>
    silent thread later ((distinctBy_sublist Thread.offset _).subset member)

theorem Silent.flatMap (one : Silent first) (two : Silent second) :
    Silent fun thread => (first thread).flatMap second := by
  intro thread later member
  obtain ⟨middle, inFirst, inSecond⟩ := List.mem_flatMap.mp member
  exact (two middle later inSecond).trans (one thread middle inFirst)

theorem Silent.append (one : Silent first) (two : Silent second) :
    Silent fun thread => first thread ++ second thread :=
  fun thread later member => (List.mem_append.mp member).elim (one thread later) (two thread later)

theorem silent_test (holds : Thread → Bool) :
    Silent fun thread => if holds thread then [thread] else [] := by
  intro thread later member
  dsimp only at member
  split at member
  · rw [List.mem_singleton.mp member]
  · cases member

theorem silent_take (accepts : Char → Bool) : Silent (Thread.take accepts) := by
  intro thread later member
  rw [Thread.take_eq] at member
  split at member
  · rw [List.mem_singleton.mp member]
    rfl
  · cases member

theorem Silent.many_rounds (silent : Silent first) (rounds : Nat) :
    Silent (manyRounds first rounds) := by
  induction rounds with
  | zero =>
      intro thread later member
      rw [List.mem_singleton.mp member]
  | succ rounds ih =>
      intro thread later member
      rw [manyRounds, List.mem_append, List.mem_singleton, List.mem_flatMap] at member
      rcases member with ⟨middle, once, more⟩ | rfl
      · exact (ih middle later more).trans (silent thread middle (List.mem_filter.mp once).1)
      · rfl

theorem Silent.few_rounds (silent : Silent first) (rounds : Nat) :
    Silent (fewRounds first rounds) :=
  fun thread later member =>
    silent.many_rounds rounds thread later ((mem_few_rounds_iff _ _ _ _).mp member)

end Silence

def Nameless : Regex → Prop
  | .sequence first second => Nameless first ∧ Nameless second
  | .either first second => Nameless first ∧ Nameless second
  | .optional body => Nameless body
  | .many body => Nameless body
  | .most body => Nameless body
  | .fewest body => Nameless body
  | .group body => Nameless body
  | .scope body => Nameless body
  | .foldCase body => Nameless body
  | .named _ _ => False
  | _ => True

theorem silent_advance {regex : Regex} (nameless : regex.Nameless) (mode : CaseMode) :
    Silent (advance mode regex) := by
  have stays : Silent fun thread => [thread] := fun thread later member => by
    rw [List.mem_singleton.mp member]
  induction regex generalizing mode with
  | empty => exact stays
  | character literal => exact silent_take _
  | inSegment => exact silent_take _
  | sequence first second firstIh secondIh =>
      exact ((firstIh nameless.1 mode).flatMap (secondIh nameless.2 mode)).distinct
  | either first second firstIh secondIh =>
      exact ((firstIh nameless.1 mode).append (secondIh nameless.2 mode)).distinct
  | optional body ih => exact ((ih nameless mode).append stays).distinct
  | many body ih =>
      have rounds : Silent fun thread => manyRounds (advance mode body) thread.rest.length thread :=
        fun thread => (ih nameless mode).many_rounds _ thread
      exact rounds.distinct
  | most body ih =>
      have rounds : Silent fun thread => manyRounds (advance mode body) thread.rest.length thread :=
        fun thread => (ih nameless mode).many_rounds _ thread
      exact ((ih nameless mode).flatMap rounds).distinct
  | fewest body ih =>
      have rounds : Silent fun thread => fewRounds (advance mode body) thread.rest.length thread :=
        fun thread => (ih nameless mode).few_rounds _ thread
      exact ((ih nameless mode).flatMap rounds).distinct
  | group body ih => exact ih nameless mode
  | named name body ih => exact nameless.elim
  | scope body ih => exact ih nameless mode
  | foldCase body ih => exact ih nameless .insensitive
  | textStart =>
      have tested := silent_test fun thread => decide (thread.offset = 0)
      simpa [advance] using tested
  | textEnd => exact silent_test fun thread => thread.rest.isEmpty

/-- The threads of an expression without names are the texts that it takes. -/
theorem mem_advance_iff {regex : Regex} (nameless : regex.Nameless) {mode : CaseMode}
    {thread later : Thread} : later ∈ advance mode regex thread ↔ ∃ taken after,
      thread.rest = taken ++ after ∧ Takes mode regex thread.front taken after ∧
        later = thread.skip taken.length := by
  constructor
  · intro member
    obtain ⟨taken, moved, reads⟩ := (explores_advance mode regex).sound member
    exact ⟨taken, later.rest, moved.1, reads _ thread.length_front,
      Thread.skip_of_moves moved (silent_advance nameless mode _ _ member)⟩
  · intro takes
    obtain ⟨taken, after, rest, reads, rfl⟩ := takes
    obtain ⟨later, member, moved⟩ :=
      (explores_advance mode regex).complete thread.length_front rest reads
    rw [← Thread.skip_of_moves moved (silent_advance nameless mode _ _ member)]
    exact member

section Following

variable {Result : Type} {mode : CaseMode}

/-- Whether success depends on the position alone, not on what was reported on the way. -/
def Blind (next : Thread → Option Result) : Prop :=
  ∀ left right : Thread, left.offset = right.offset → left.rest = right.rest →
    (next left).isSome = (next right).isSome

theorem find_same {threads : List Thread} {thread : Thread} (next : Thread → Option Result)
    (member : thread ∈ threads) (same : ∀ other ∈ threads, other = thread) :
    threads.findSome? next = next thread := by
  rw [List.eq_replicate_of_mem same]
  exact List.findSome?_replicate_of_pos (List.length_pos_of_mem member)

theorem find_flatMap {Item : Type} (threads : Item → List Thread) (next : Thread → Option Result)
    (items : List Item) :
    (items.flatMap threads).findSome? next = items.findSome? fun item =>
      (threads item).findSome? next := by
  induction items with
  | nil => rfl
  | cons item items ih =>
      rw [List.flatMap_cons, List.findSome?_append, ih, List.findSome?_cons]
      cases (threads item).findSome? next <;> rfl

/-- Dropping later threads at a position drops no success that would have come first. -/
theorem find_distinct {threads : Thread → List Thread} {reading : Reading}
    (explored : Explores threads reading) {next : Thread → Option Result} (blind : Blind next)
    (thread : Thread) :
    (Thread.distinct (threads thread)).findSome? next = (threads thread).findSome? next := by
  apply find_some_distinctBy
  intro left isLeft right isRight same
  obtain ⟨taken, moved, -⟩ := explored.sound isLeft
  obtain ⟨other, otherMoved, -⟩ := explored.sound isRight
  have lengths : taken.length = other.length := by
    have := moved.2
    have := otherMoved.2
    omega
  have rests : taken ++ left.rest = other ++ right.rest := moved.1.symm.trans otherMoved.1
  exact blind _ _ same (List.append_inj rests lengths).2

theorem Blind.advance {next : Thread → Option Result} (blind : Blind next) (part : Regex) :
    Blind fun thread => (advance mode part thread).findSome? next := by
  intro left right offset rest
  have transfers : ∀ {left right : Thread}, left.offset = right.offset → left.rest = right.rest →
      ((Regex.advance mode part left).findSome? next).isSome = true →
        ((Regex.advance mode part right).findSome? next).isSome = true := by
    intro left right offset rest found
    rw [List.findSome?_isSome_iff] at found ⊢
    obtain ⟨later, member, succeeds⟩ := found
    obtain ⟨taken, moved, reads⟩ := (explores_advance mode part).sound member
    obtain ⟨other, otherMember, otherMoved⟩ := (explores_advance mode part).complete
      (left.length_front.trans offset) (rest.symm.trans moved.1) (reads _ left.length_front)
    have offsets : later.offset = other.offset := by rw [moved.2, otherMoved.2, offset]
    have rests : later.rest = other.rest :=
      (moves_rest_eq otherMoved (rest.symm.trans moved.1)).symm
    exact ⟨other, otherMember, blind _ _ offsets rests ▸ succeeds⟩
  exact Bool.eq_iff_iff.mpr ⟨transfers offset rest, transfers offset.symm rest.symm⟩

def follow (mode : CaseMode) : List Regex → (Thread → Option Result) → Thread → Option Result
  | [], finish, thread => finish thread
  | part :: parts, finish, thread => (advance mode part thread).findSome? (follow mode parts finish)

theorem follow_append (mode : CaseMode) (parts others : List Regex)
    (finish : Thread → Option Result) :
    follow mode (parts ++ others) finish = follow mode parts (follow mode others finish) := by
  induction parts with
  | nil => rfl
  | cons part parts ih =>
      funext thread
      rw [List.cons_append, follow, follow, ih]

theorem Blind.follow {finish : Thread → Option Result} (blind : Blind finish) (parts : List Regex) :
    Blind (follow mode parts finish) := by
  induction parts with
  | nil => exact blind
  | cons part parts ih => exact ih.advance part

theorem find_sequence {next : Thread → Option Result} (blind : Blind next) (first second : Regex)
    (thread : Thread) : (advance mode (.sequence first second) thread).findSome? next =
      (advance mode first thread).findSome? fun middle =>
        (advance mode second middle).findSome? next := by
  have explored := (explores_advance mode first).flatMap (explores_advance mode second)
  exact (find_distinct explored blind thread).trans (find_flatMap _ _ _)

theorem find_foldl {next : Thread → Option Result} (blind : Blind next) (start : Regex)
    (parts : List Regex) (thread : Thread) :
    (advance mode (parts.foldl .sequence start) thread).findSome? next =
      (advance mode start thread).findSome? (follow mode parts next) := by
  induction parts generalizing start with
  | nil => rfl
  | cons part parts ih =>
      rw [List.foldl_cons, ih, find_sequence (blind.follow parts)]
      rfl

theorem find_concat {next : Thread → Option Result} (blind : Blind next) (parts : List Regex)
    (thread : Thread) :
    (advance mode (concat parts) thread).findSome? next = follow mode parts next thread := by
  rw [concat, find_foldl blind]
  exact List.findSome?_singleton

end Following

def finish (thread : Thread) : Option Captures :=
  if thread.rest.isEmpty then some thread.captures else none

theorem blind_finish : Blind finish := by
  intro left right offset rest
  rw [finish, finish, rest]
  split <;> rfl

theorem head_advance_anchored (mode : CaseMode) (parts : List Regex) (thread : Thread) :
    (advance mode (concat (parts ++ [.textEnd])) thread).head?.map Thread.captures =
      follow mode parts finish thread := by
  have reports : Blind fun thread : Thread => some thread.captures := fun _ _ _ _ => rfl
  have ending : follow mode [.textEnd] (fun thread => some thread.captures) = finish := by
    funext thread
    rw [follow, advance, finish]
    split <;> rfl
  rw [← ending, ← follow_append, ← find_concat reports]
  cases advance mode (concat (parts ++ [.textEnd])) thread <;> rfl

end PathGlob.Regex
