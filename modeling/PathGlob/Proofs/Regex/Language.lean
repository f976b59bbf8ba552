import PathGlob.Regex.Search

/-!
# What regular expressions take

Describes a regular expression without any search: `Takes mode regex before taken after` says that
the expression can take `taken` where that stands between `before` and `after`. The search is then
shown to agree. The threads that `advance` lists from a position are the texts that can be taken
there, and a text is found exactly when it can be cut in three so that the middle is taken. Which
thread is preferred and what the named groups report is not part of this description.
-/
namespace PathGlob.Regex

set_option autoImplicit false

abbrev Reading := Text → Text → Text → Prop

def Both (first second : Reading) : Reading := fun before taken after =>
  ∃ left right, taken = left ++ right ∧ first before left (right ++ after) ∧
    second (before ++ left) right after

inductive Rounds (round : Reading) : Reading where
  | stop (before after : Text) : Rounds round before [] after
  | again {before first second after : Text} (once : round before first (second ++ after))
      (more : Rounds round (before ++ first) second after) :
      Rounds round before (first ++ second) after

/-- Whether an expression can take a text where it stands. -/
def Takes : CaseMode → Regex → Reading
  | _, .empty => fun _ taken _ => taken = []
  | mode, .character literal => fun _ taken _ =>
      ∃ next, taken = [next] ∧ mode.agree literal next = true
  | _, .inSegment => fun _ taken _ => ∃ next, taken = [next] ∧ isSegmentCharacter next = true
  | mode, .sequence first second => Both (Takes mode first) (Takes mode second)
  | mode, .either first second => fun before taken after =>
      Takes mode first before taken after ∨ Takes mode second before taken after
  | mode, .optional body => fun before taken after =>
      Takes mode body before taken after ∨ taken = []
  | mode, .many body => Rounds (Takes mode body)
  | mode, .most body => Both (Takes mode body) (Rounds (Takes mode body))
  | mode, .fewest body => Both (Takes mode body) (Rounds (Takes mode body))
  | mode, .group body => Takes mode body
  | mode, .named _ body => Takes mode body
  | mode, .scope body => Takes mode body
  | _, .foldCase body => Takes .insensitive body
  | _, .textStart => fun before taken _ => taken = [] ∧ before = []
  | _, .textEnd => fun _ taken after => taken = [] ∧ after = []

def Thread.Moves (thread later : Thread) (taken : Text) : Prop :=
  thread.rest = taken ++ later.rest ∧ later.offset = thread.offset + taken.length

theorem moves_refl (thread : Thread) : thread.Moves thread [] := ⟨rfl, rfl⟩

theorem moves_trans {first second third : Thread} {left right : Text}
    (earlier : first.Moves second left) (later : second.Moves third right) :
    first.Moves third (left ++ right) := by
  constructor
  · rw [earlier.1, later.1, List.append_assoc]
  · rw [later.2, earlier.2, List.length_append, Nat.add_assoc]

theorem moves_rest_eq {thread later : Thread} {taken after : Text}
    (moved : thread.Moves later taken) (rest : thread.rest = taken ++ after) : later.rest = after :=
  List.append_cancel_left (moved.1.symm.trans rest)

/-- A list of threads for each thread that agrees with a reading, both ways. -/
structure Explores (threads : Thread → List Thread) (reading : Reading) : Prop where
  sound : ∀ {thread later : Thread}, later ∈ threads thread → ∃ taken, thread.Moves later taken ∧
    ∀ before : Text, before.length = thread.offset → reading before taken later.rest
  complete : ∀ {thread : Thread} {before taken after : Text}, before.length = thread.offset →
    thread.rest = taken ++ after → reading before taken after →
      ∃ later ∈ threads thread, thread.Moves later taken

namespace Explores

variable {first second : Thread → List Thread} {left right : Reading}

/-- Dropping all but the first thread at each position loses no position, and so no text. -/
theorem distinct (explored : Explores first left) :
    Explores (fun thread => Thread.distinct (first thread)) left := by
  constructor
  · intro thread later member
    exact explored.sound ((distinctBy_sublist Thread.offset _).subset member)
  · intro thread before taken after length rest reads
    obtain ⟨later, member, moved⟩ := explored.complete length rest reads
    have offset : later.offset ∈ (Thread.distinct (first thread)).map Thread.offset :=
      (key_mem_distinctBy Thread.offset _ _).mpr (List.mem_map_of_mem member)
    obtain ⟨kept, keptMember, same⟩ := List.mem_map.mp offset
    obtain ⟨other, otherMoved, _⟩ :=
      explored.sound ((distinctBy_sublist Thread.offset _).subset keptMember)
    refine ⟨kept, keptMember, ?_⟩
    have lengths : other.length = taken.length := by
      have := otherMoved.2
      have := moved.2
      omega
    have texts : other ++ kept.rest = taken ++ after := otherMoved.1.symm.trans rest
    rw [(List.append_inj texts lengths).1] at otherMoved
    exact otherMoved

theorem flatMap (one : Explores first left) (two : Explores second right) :
    Explores (fun thread => (first thread).flatMap second) (Both left right) := by
  constructor
  · intro thread later member
    obtain ⟨middle, middleMember, laterMember⟩ := List.mem_flatMap.mp member
    obtain ⟨start, startMoved, startReads⟩ := one.sound middleMember
    obtain ⟨stop, stopMoved, stopReads⟩ := two.sound laterMember
    refine ⟨start ++ stop, moves_trans startMoved stopMoved, fun before length => ?_⟩
    refine ⟨start, stop, rfl, ?_, stopReads (before ++ start) ?_⟩
    · rw [← stopMoved.1]
      exact startReads before length
    · rw [List.length_append, length, startMoved.2]
  · intro thread before taken after length rest both
    rcases both with ⟨start, stop, rfl, startReads, stopReads⟩
    rw [List.append_assoc] at rest
    obtain ⟨middle, middleMember, startMoved⟩ := one.complete length rest startReads
    have middleRest := moves_rest_eq startMoved rest
    obtain ⟨later, laterMember, stopMoved⟩ :=
      two.complete (by rw [List.length_append, length, startMoved.2]) middleRest stopReads
    exact ⟨later, List.mem_flatMap.mpr ⟨middle, middleMember, laterMember⟩,
      moves_trans startMoved stopMoved⟩

theorem append (one : Explores first left) (two : Explores second right) :
    Explores (fun thread => first thread ++ second thread)
      (fun before taken after => left before taken after ∨ right before taken after) := by
  constructor
  · intro thread later member
    rcases List.mem_append.mp member with inFirst | inSecond
    · obtain ⟨taken, moved, reads⟩ := one.sound inFirst
      exact ⟨taken, moved, fun before length => .inl (reads before length)⟩
    · obtain ⟨taken, moved, reads⟩ := two.sound inSecond
      exact ⟨taken, moved, fun before length => .inr (reads before length)⟩
  · intro thread before taken after length rest either
    rcases either with inLeft | inRight
    · obtain ⟨later, member, moved⟩ := one.complete length rest inLeft
      exact ⟨later, List.mem_append_left _ member, moved⟩
    · obtain ⟨later, member, moved⟩ := two.complete length rest inRight
      exact ⟨later, List.mem_append_right _ member, moved⟩

theorem test (holds : Thread → Bool) (condition : Text → Text → Prop)
    (agrees : ∀ (thread : Thread) (before : Text), before.length = thread.offset →
      (holds thread = true ↔ condition before thread.rest)) :
    Explores (fun thread => if holds thread then [thread] else [])
      (fun before taken after => taken = [] ∧ condition before after) := by
  constructor
  · intro thread later member
    split at member
    · rename_i passes
      rw [List.mem_singleton.mp member]
      exact ⟨[], moves_refl thread, fun before length =>
        ⟨rfl, (agrees thread before length).mp passes⟩⟩
    · cases member
  · intro thread before taken after length rest both
    rcases both with ⟨rfl, met⟩
    rw [List.nil_append] at rest
    rw [← rest] at met
    exact ⟨thread, by simp [(agrees thread before length).mpr met], moves_refl thread⟩

theorem take (accepts : Char → Bool) :
    Explores (Thread.take accepts)
      (fun _ taken _ => ∃ next, taken = [next] ∧ accepts next = true) := by
  constructor
  · intro thread later member
    unfold Thread.take at member
    split at member
    · rename_i next rest same
      split at member
      · rename_i accepted
        rw [List.mem_singleton.mp member]
        exact ⟨[next], ⟨same, rfl⟩, fun _ _ => ⟨next, rfl, accepted⟩⟩
      · cases member
    · cases member
  · intro thread before taken after length rest both
    rcases both with ⟨next, rfl, accepted⟩
    rw [List.singleton_append] at rest
    refine ⟨{ thread with offset := thread.offset + 1, rest := after }, ?_, rest, rfl⟩
    simp [Thread.take, rest, accepted]

theorem rename {threads : Thread → List Thread} (explored : Explores threads left)
    (change : Thread → Thread → Thread)
    (offset : ∀ opened closed, (change opened closed).offset = closed.offset)
    (rest : ∀ opened closed, (change opened closed).rest = closed.rest) :
    Explores (fun thread => (threads thread).map (change thread)) left := by
  constructor
  · intro thread later member
    obtain ⟨closed, closedMember, rfl⟩ := List.mem_map.mp member
    obtain ⟨taken, moved, reads⟩ := explored.sound closedMember
    simp only [Thread.Moves, offset, rest]
    exact ⟨taken, moved, reads⟩
  · intro thread before taken after length same reads
    obtain ⟨later, member, moved⟩ := explored.complete length same reads
    refine ⟨change thread later, List.mem_map_of_mem member, ?_⟩
    simp only [Thread.Moves, offset, rest]
    exact moved

end Explores

theorem mem_few_rounds_iff (round : Thread → List Thread) (rounds : Nat) (thread later : Thread) :
    later ∈ fewRounds round rounds thread ↔ later ∈ manyRounds round rounds thread := by
  induction rounds generalizing thread with
  | zero => rfl
  | succ rounds ih =>
      simp only [fewRounds, manyRounds, List.mem_cons, List.mem_append, List.mem_flatMap, ih,
        List.not_mem_nil, or_false]
      exact or_comm

theorem reads_of_mem_many_rounds {threads : Thread → List Thread} {reading : Reading}
    (explored : Explores threads reading) {rounds : Nat} {thread later : Thread}
    (member : later ∈ manyRounds threads rounds thread) :
    ∃ taken, thread.Moves later taken ∧
      ∀ before : Text, before.length = thread.offset →
        Rounds reading before taken later.rest := by
  induction rounds generalizing thread with
  | zero =>
      rw [manyRounds, List.mem_singleton] at member
      rw [member]
      exact ⟨[], moves_refl thread, fun before _ => .stop before _⟩
  | succ rounds ih =>
      rw [manyRounds, List.mem_append, List.mem_singleton] at member
      rcases member with further | rfl
      · obtain ⟨middle, middleMember, laterMember⟩ := List.mem_flatMap.mp further
        obtain ⟨start, startMoved, startReads⟩ := explored.sound (List.mem_filter.mp middleMember).1
        obtain ⟨stop, stopMoved, stopReads⟩ := ih laterMember
        refine ⟨start ++ stop, moves_trans startMoved stopMoved, fun before length => ?_⟩
        refine .again ?_ (stopReads (before ++ start) ?_)
        · rw [← stopMoved.1]
          exact startReads before length
        · rw [List.length_append, length, startMoved.2]
      · exact ⟨[], moves_refl later, fun before _ => .stop before _⟩

/-- Rounds that take nothing can be left out, so as many rounds as characters are enough. -/
theorem mem_many_rounds_of_reads {threads : Thread → List Thread} {reading : Reading}
    (explored : Explores threads reading) {rounds : Nat} {thread : Thread}
    {before taken after : Text} (length : before.length = thread.offset)
    (rest : thread.rest = taken ++ after) (enough : taken.length ≤ rounds)
    (reads : Rounds reading before taken after) :
    ∃ later ∈ manyRounds threads rounds thread, thread.Moves later taken := by
  induction reads generalizing thread rounds with
  | stop before after =>
      refine ⟨thread, ?_, moves_refl thread⟩
      cases rounds <;> simp [manyRounds]
  | @again before first second after once more ih =>
      rw [List.append_assoc] at rest
      obtain ⟨middle, middleMember, moved⟩ := explored.complete length rest once
      have middleRest := moves_rest_eq moved rest
      rcases List.eq_nil_or_concat first with rfl | nonempty
      · rw [List.append_nil] at ih
        exact ih length rest (by simpa using enough)
      · have positive : 0 < first.length := by
          obtain ⟨init, last, rfl⟩ := nonempty
          simp
        rw [List.length_append] at enough
        cases rounds with
        | zero => omega
        | succ rounds =>
            have middleLength : (before ++ first).length = middle.offset := by
              rw [List.length_append, length, moved.2]
            have advanced : thread.offset < middle.offset := by
              rw [moved.2]
              omega
            obtain ⟨later, laterMember, laterMoved⟩ :=
              @ih rounds middle middleLength middleRest (by omega)
            refine ⟨later, ?_, moves_trans moved laterMoved⟩
            rw [manyRounds, List.mem_append, List.mem_flatMap]
            exact .inl
              ⟨middle, List.mem_filter.mpr ⟨middleMember, decide_eq_true advanced⟩, laterMember⟩

theorem explores_many_rounds {threads : Thread → List Thread} {reading : Reading}
    (explored : Explores threads reading) :
    Explores (fun thread => manyRounds threads thread.rest.length thread) (Rounds reading) := by
  constructor
  · intro thread later member
    exact reads_of_mem_many_rounds explored member
  · intro thread before taken after length rest reads
    have enough : taken.length ≤ thread.rest.length := by
      rw [rest, List.length_append]
      omega
    exact mem_many_rounds_of_reads explored length rest enough reads

theorem explores_few_rounds {threads : Thread → List Thread} {reading : Reading}
    (explored : Explores threads reading) :
    Explores (fun thread => fewRounds threads thread.rest.length thread) (Rounds reading) := by
  have many := explores_many_rounds explored
  constructor
  · intro thread later member
    exact many.sound ((mem_few_rounds_iff threads _ thread later).mp member)
  · intro thread before taken after length rest reads
    obtain ⟨later, member, moved⟩ := many.complete length rest reads
    exact ⟨later, (mem_few_rounds_iff threads _ thread later).mpr member, moved⟩

/-- The threads from a position are the texts that the expression takes there. -/
theorem explores_advance (mode : CaseMode) (regex : Regex) :
    Explores (advance mode regex) (Takes mode regex) := by
  induction regex generalizing mode with
  | empty =>
      have kept := Explores.test (fun _ => true) (fun _ _ => True) (by simp)
      simpa [advance, Takes] using kept
  | character literal => exact Explores.take (mode.agree literal)
  | inSegment => exact Explores.take isSegmentCharacter
  | sequence first second firstIh secondIh =>
      exact ((firstIh mode).flatMap (secondIh mode)).distinct
  | either first second firstIh secondIh => exact ((firstIh mode).append (secondIh mode)).distinct
  | optional body ih =>
      have kept := Explores.test (fun _ => true) (fun _ _ => True) (by simp)
      have both := ((ih mode).append kept).distinct
      simpa [advance, Takes] using both
  | many body ih => exact (explores_many_rounds (ih mode)).distinct
  | most body ih => exact ((ih mode).flatMap (explores_many_rounds (ih mode))).distinct
  | fewest body ih => exact ((ih mode).flatMap (explores_few_rounds (ih mode))).distinct
  | group body ih => exact ih mode
  | named name body ih =>
      exact (ih mode).rename (Thread.close name) (fun _ _ => rfl) (fun _ _ => rfl)
  | scope body ih => exact ih mode
  | foldCase body ih => exact ih .insensitive
  | textStart =>
      have tested :=
        Explores.test (fun thread => decide (thread.offset = 0)) (fun before _ => before = []) (by
          intro thread before length
          rw [decide_eq_true_eq, ← length, List.length_eq_zero_iff])
      simpa [advance, Takes] using tested
  | textEnd =>
      exact Explores.test (fun thread => thread.rest.isEmpty) (fun _ after => after = [])
        (fun _ _ _ => List.isEmpty_iff)

theorem advance_ne_nil_iff (mode : CaseMode) (regex : Regex) (before rest : Text) :
    advance mode regex ⟨before.length, rest, []⟩ ≠ [] ↔
      ∃ taken after, rest = taken ++ after ∧ Takes mode regex before taken after := by
  have explored := explores_advance mode regex
  constructor
  · intro nonempty
    obtain ⟨later, member⟩ := List.exists_mem_of_ne_nil _ nonempty
    obtain ⟨taken, moved, reads⟩ := explored.sound member
    exact ⟨taken, later.rest, moved.1, reads before rfl⟩
  · intro both
    rcases both with ⟨taken, after, same, reads⟩
    obtain ⟨later, member, _⟩ : ∃ later ∈ advance mode regex ⟨before.length, rest, []⟩,
        Thread.Moves ⟨before.length, rest, []⟩ later taken := explored.complete rfl same reads
    exact List.ne_nil_of_mem member

theorem search_from_some_iff (regex : Regex) (before rest : Text) :
    (searchFrom regex before.length rest).isSome = true ↔
      ∃ skipped taken after, rest = skipped ++ (taken ++ after) ∧
        Takes .sensitive regex (before ++ skipped) taken after := by
  induction rest generalizing before with
  | nil =>
      rw [searchFrom, List.isSome_head?, advance_ne_nil_iff]
      constructor
      · intro both
        rcases both with ⟨taken, after, same, reads⟩
        exact ⟨[], taken, after, same, by rwa [List.append_nil]⟩
      · intro both
        rcases both with ⟨skipped, taken, after, same, reads⟩
        obtain ⟨rfl, rest⟩ := List.append_eq_nil_iff.mp same.symm
        rw [List.append_nil] at reads
        exact ⟨taken, after, rest.symm, reads⟩
  | cons next rest ih =>
      have here := advance_ne_nil_iff .sensitive regex before (next :: rest)
      have further := ih (before ++ [next])
      rw [List.length_append, List.length_singleton] at further
      rw [searchFrom]
      split
      · rename_i thread threads found
        obtain ⟨taken, after, same, reads⟩ := here.mp (by rw [found]; exact List.cons_ne_nil _ _)
        simp only [Option.isSome_some, true_iff]
        exact ⟨[], taken, after, same, by rwa [List.append_nil]⟩
      · rename_i none
        rw [further]
        constructor
        · intro both
          rcases both with ⟨skipped, taken, after, rfl, reads⟩
          exact ⟨next :: skipped, taken, after, rfl, by rwa [List.append_assoc] at reads⟩
        · intro both
          rcases both with ⟨skipped, taken, after, same, reads⟩
          cases skipped with
          | nil =>
              rw [List.append_nil] at reads
              exact absurd none (here.mpr ⟨taken, after, same, reads⟩)
          | cons first skipped =>
              rw [List.cons_append, List.cons.injEq] at same
              obtain ⟨rfl, rfl⟩ := same
              exact ⟨skipped, taken, after, rfl, by rwa [List.append_assoc]⟩

/-- A text is found exactly when the expression takes some part of it. -/
theorem found_iff_takes (regex : Regex) (text : Text) :
    found regex text = true ↔
      ∃ before taken after, text = before ++ (taken ++ after) ∧
        Takes .sensitive regex before taken after := by
  have whole := search_from_some_iff regex [] text
  simp only [List.length_nil, List.nil_append] at whole
  rw [found, search, Option.isSome_map, whole]

theorem both_assoc {first second third : Reading} {before taken after : Text} :
    Both (Both first second) third before taken after ↔
      Both first (Both second third) before taken after := by
  constructor
  · intro both
    rcases both with ⟨-, right, rfl, ⟨left, middle, rfl, inFirst, inSecond⟩, inThird⟩
    rw [← List.append_assoc] at inThird
    refine ⟨left, middle ++ right, List.append_assoc _ _ _, ?_, middle, right, rfl, inSecond,
      inThird⟩
    rwa [List.append_assoc]
  · intro both
    rcases both with ⟨left, -, rfl, inFirst, middle, right, rfl, inSecond, inThird⟩
    rw [List.append_assoc] at inFirst inThird
    exact ⟨left ++ middle, right, (List.append_assoc _ _ _).symm,
      ⟨left, middle, rfl, inFirst, inSecond⟩, inThird⟩

theorem both_congr_right {first second other : Reading} {before taken after : Text}
    (same : ∀ left right, taken = left ++ right →
      (second (before ++ left) right after ↔ other (before ++ left) right after)) :
    Both first second before taken after ↔ Both first other before taken after := by
  constructor
  · intro both
    rcases both with ⟨left, right, split, inFirst, inSecond⟩
    exact ⟨left, right, split, inFirst, (same left right split).mp inSecond⟩
  · intro both
    rcases both with ⟨left, right, split, inFirst, inOther⟩
    exact ⟨left, right, split, inFirst, (same left right split).mpr inOther⟩

theorem both_nothing_left {reading : Reading} {before taken after : Text} :
    Both (fun _ taken _ => taken = []) reading before taken after ↔ reading before taken after := by
  constructor
  · intro both
    rcases both with ⟨left, right, rfl, rfl, inReading⟩
    rwa [List.append_nil] at inReading
  · intro inReading
    exact ⟨[], taken, rfl, rfl, by rwa [List.append_nil]⟩

theorem both_nothing_right {reading : Reading} {before taken after : Text} :
    Both reading (fun _ taken _ => taken = []) before taken after ↔ reading before taken after := by
  constructor
  · intro both
    rcases both with ⟨left, right, rfl, inReading, rfl⟩
    rwa [List.append_nil]
  · intro inReading
    exact ⟨taken, [], (List.append_nil taken).symm, inReading, rfl⟩

theorem takes_foldl_iff (mode : CaseMode) (start : Regex) (parts : List Regex)
    (before taken after : Text) :
    Takes mode (parts.foldl .sequence start) before taken after ↔
      Both (Takes mode start) (Takes mode (concat parts)) before taken after := by
  induction parts generalizing start before taken after with
  | nil => exact both_nothing_right.symm
  | cons part parts ih =>
      rw [List.foldl_cons, ih]
      change Both (Both (Takes mode start) (Takes mode part)) _ before taken after ↔ _
      rw [both_assoc]
      apply both_congr_right
      intro left right _
      refine Iff.symm ((ih (.sequence .empty part) _ _ _).trans ?_)
      change Both (Both (fun _ taken _ => taken = []) (Takes mode part)) _ _ _ _ ↔ _
      rw [both_assoc, both_nothing_left]

theorem takes_concat_cons_iff (mode : CaseMode) (part : Regex) (parts : List Regex)
    (before taken after : Text) :
    Takes mode (concat (part :: parts)) before taken after ↔
      Both (Takes mode part) (Takes mode (concat parts)) before taken after := by
  rw [concat, List.foldl_cons, takes_foldl_iff]
  change Both (Both (fun _ taken _ => taken = []) (Takes mode part)) _ _ _ _ ↔ _
  rw [both_assoc, both_nothing_left]

theorem takes_concat_singleton_iff (mode : CaseMode) (part : Regex) (before taken after : Text) :
    Takes mode (concat [part]) before taken after ↔ Takes mode part before taken after := by
  rw [takes_concat_cons_iff]
  exact both_nothing_right

theorem takes_concat_append_iff (mode : CaseMode) (parts others : List Regex)
    (before taken after : Text) :
    Takes mode (concat (parts ++ others)) before taken after ↔
      Both (Takes mode (concat parts)) (Takes mode (concat others)) before taken after := by
  rw [concat, List.foldl_append, takes_foldl_iff]
  rfl

theorem takes_text_start_iff (mode : CaseMode) (parts : List Regex) (before taken after : Text) :
    Takes mode (concat (.textStart :: parts)) before taken after ↔
      before = [] ∧ Takes mode (concat parts) [] taken after := by
  rw [takes_concat_cons_iff]
  constructor
  · intro both
    rcases both with ⟨-, right, rfl, ⟨rfl, rfl⟩, rest⟩
    exact ⟨rfl, rest⟩
  · intro both
    rcases both with ⟨rfl, rest⟩
    exact ⟨[], taken, rfl, ⟨rfl, rfl⟩, rest⟩

theorem takes_text_end_iff (mode : CaseMode) (parts : List Regex) (before taken after : Text) :
    Takes mode (concat (parts ++ [.textEnd])) before taken after ↔
      after = [] ∧ Takes mode (concat parts) before taken [] := by
  rw [takes_concat_append_iff]
  constructor
  · intro both
    rcases both with ⟨left, right, rfl, inParts, ends⟩
    obtain ⟨rfl, rfl⟩ := (takes_concat_singleton_iff mode _ _ _ _).mp ends
    exact ⟨rfl, by simpa using inParts⟩
  · intro both
    rcases both with ⟨rfl, inParts⟩
    refine ⟨taken, [], by simp, inParts, ?_⟩
    exact (takes_concat_singleton_iff mode _ _ _ _).mpr ⟨rfl, rfl⟩

end PathGlob.Regex
