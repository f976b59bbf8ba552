import PathGlob.Proofs.Glob.Grammar

/-!
# Where reading stops

A text that is no glob is rejected at the first character with which no glob can go on: what stands
in front of it can still be continued to a legal text, and what includes it cannot. Every reader
that gets stuck is shown to stop at such a place, however much it has read by then. Reading can also
end without getting stuck, in front of a character that no segment takes; only then is `..` looked
for.
-/
namespace PathGlob

set_option autoImplicit false

theorem Part.ends_at_congr {left right : Text} (same : left.head? = right.head?) (part : Part) :
    part.EndsAt left ↔ part.EndsAt right := by
  cases part <;> simp only [EndsAt, same]

namespace Glob

open PathGlob.Path

def Viable (text : Text) : Prop := ∃ further, Legal (text ++ further)

/--
A reader is stuck behind a text: the text can be continued so that it is read to its end, but not if
the character at which reading halted follows.
-/
structure Stuck {Result : Type} (reads : Text → Except Halt Result) (whole : Result → Prop)
    (taken : Text) (halt : Halt) : Prop where
  completes : ∃ further result, reads (taken ++ further) = .ok result ∧ whole result
  refuses : ∀ next ∈ halt.rest.head?, ∀ more, ∃ other, reads (taken ++ next :: more) = .error other
  cause : halt.cause ≠ .parentSegment

/--
A reader that hands what is behind a text to another one is stuck behind it where that one is.
-/
theorem Stuck.behind {Result Other : Type} {reads : Text → Except Halt Result}
    {whole : Result → Prop} {others : Text → Except Halt Other} {wholeOther : Other → Prop}
    {taken : Text} {halt : Halt} (stuck : Stuck reads whole taken halt) (front : Text)
    {finish : Result → Other}
    (hands : ∀ more, others (front ++ (taken ++ more)) = (reads (taken ++ more)).map finish)
    (keeps : ∀ {result}, whole result → wholeOther (finish result)) :
    Stuck others wholeOther (front ++ taken) halt := by
  refine ⟨?_, ?_, stuck.cause⟩
  · obtain ⟨further, result, read, ended⟩ := stuck.completes
    refine ⟨further, finish result, ?_, keeps ended⟩
    rw [List.append_assoc, hands, read]
    rfl
  · intro next member more
    obtain ⟨other, read⟩ := stuck.refuses next member more
    refine ⟨other, ?_⟩
    rw [List.append_assoc, hands, read]
    rfl

theorem read_enclosed_stuck {accepts : Char → Bool} {closing : Char} {lacking : GrammarCause}
    (acceptable : ∃ character, accepts character = true) (refused : accepts closing = false)
    (cause : lacking ≠ .parentSegment) {text : Text} {halt : Halt}
    (read : readEnclosed accepts closing lacking text = .error halt) :
    ∃ body, text = body ++ halt.rest ∧
      Stuck (readEnclosed accepts closing lacking) (·.2 = []) body halt := by
  have accepted : ∀ character ∈ text.takeWhile accepts, accepts character = true :=
    fun character member => List.mem_takeWhile_imp member
  have left : ∀ next ∈ (text.dropWhile accepts).head?, accepts next = false := by
    intro next member
    simpa [Option.mem_def.mp member] using List.head?_dropWhile_not accepts text
  obtain ⟨rest, lacks, other⟩ : halt.rest = text.dropWhile accepts ∧
      (text.takeWhile accepts = [] ∨ closing ∉ (text.dropWhile accepts).head?) ∧
        halt.cause ≠ .parentSegment := by
    unfold readEnclosed at read
    generalize text.takeWhile accepts = body at read ⊢
    generalize text.dropWhile accepts = behind at read ⊢
    split at read
    · cases read
      exact ⟨rfl, .inl rfl, GrammarCause.noConfusion⟩
    · cases read
      exact ⟨rfl, .inl rfl, cause⟩
    · cases read
      exact ⟨rfl, .inr (by simp), GrammarCause.noConfusion⟩
    · split at read
      · cases read
      · rename_i different
        cases read
        exact ⟨rfl, .inr fun same => different (Option.some.inj same), GrammarCause.noConfusion⟩
  refine ⟨text.takeWhile accepts, by rw [rest, List.takeWhile_append_dropWhile], ?_, ?_, other⟩
  · obtain ⟨character, fits⟩ := acceptable
    refine ⟨[character, closing], ⟨text.takeWhile accepts ++ [character], []⟩, ?_, rfl⟩
    apply (read_enclosed_eq_ok_iff refused).mpr
    refine ⟨by simp, by simp, ?_⟩
    rw [List.forall_mem_append]
    exact ⟨accepted, by simpa using fits⟩
  · intro next member more
    rw [rest] at member
    have stops : ∀ other ∈ (next :: more).head?, accepts other = false := by
      simpa using left next member
    obtain ⟨taken, dropped⟩ := take_while_then accepted stops
    rw [readEnclosed, taken, dropped]
    rcases lacks with none | other
    · rw [none]
      exact ⟨_, rfl⟩
    · have different : next ≠ closing := fun same => other (same ▸ member)
      cases text.takeWhile accepts with
      | nil => exact ⟨_, rfl⟩
      | cons first others => exact ⟨_, if_neg different⟩

theorem map_eq_error {Result Other : Type} {outcome : Except Halt Result} {finish : Result → Other}
    {halt : Halt} (failed : outcome.map finish = .error halt) : outcome = .error halt := by
  cases outcome with
  | error other => simpa [Except.map] using failed
  | ok result => cases failed

theorem read_part_stuck {text : Text} {halt : Halt} (read : readPart? text = .error halt) :
    ∃ taken, taken ≠ [] ∧ text = taken ++ halt.rest ∧
      Stuck readPart? (fun result => ∃ part, result = some (part, [])) taken halt := by
  simp only [readPart?] at read
  split at read
  · cases read
    refine ⟨['*'], List.cons_ne_nil _ _, rfl, ⟨[], some (.star, []), rfl, .star, rfl⟩, ?_,
      GrammarCause.noConfusion⟩
    intro next member more
    cases member
    exact ⟨_, rfl⟩
  · cases read
  · rename_i inner
    have fits : ∃ character, isOrdinary character = true := ⟨'a', by decide⟩
    obtain ⟨body, rfl, stuck⟩ :=
      read_enclosed_stuck fits rfl GrammarCause.noConfusion (map_eq_error read)
    exact ⟨'[' :: body, List.cons_ne_nil _ _, rfl,
      stuck.behind ['['] (fun _ => rfl) fun ended => ⟨_, congrArg some (Prod.ext rfl ended)⟩⟩
  · rename_i inner
    have fits : ∃ character, isNameCharacter character = true := ⟨'a', by decide⟩
    obtain ⟨body, rfl, stuck⟩ :=
      read_enclosed_stuck fits (by decide) GrammarCause.noConfusion (map_eq_error read)
    exact ⟨'{' :: body, List.cons_ne_nil _ _, rfl,
      stuck.behind ['{'] (fun _ => rfl) fun ended => ⟨_, congrArg some (Prod.ext rfl ended)⟩⟩
  · split at read <;> cases read

theorem read_parts_of_error {text : Text} {halt : Halt} (read : readPart? text = .error halt) :
    readParts text = .error halt := by
  rw [readParts]
  split <;> simp_all

theorem read_parts_behind {part : Part} {rest : Text} (proper : part.Proper)
    (ends : part.EndsAt rest) :
    readParts (part.print ++ rest) = (readParts rest).map fun (parts, rest) =>
      (part :: parts, rest) :=
  read_parts_of_some (read_part_eq_ok_iff.mpr ⟨rfl, proper, ends⟩)

theorem read_parts_stuck {text : Text} {halt : Halt} (read : readParts text = .error halt) :
    ∃ taken, taken ≠ [] ∧ text = taken ++ halt.rest ∧ Stuck readParts (·.2 = []) taken halt := by
  fun_induction readParts text with
  | case1 text other step =>
      cases read
      obtain ⟨taken, nonempty, same, stuck⟩ := read_part_stuck step
      refine ⟨taken, nonempty, same, ?_, ?_, stuck.cause⟩
      · obtain ⟨further, _, whole, part, rfl⟩ := stuck.completes
        refine ⟨further, ([part], []), ?_, rfl⟩
        rw [read_parts_of_some whole, read_parts_of_none rfl]
        rfl
      · intro next member more
        obtain ⟨failed, refused⟩ := stuck.refuses next member more
        exact ⟨failed, read_parts_of_error refused⟩
  | case2 text step => cases read
  | case3 text part left step ih =>
      obtain ⟨taken, nonempty, rfl, stuck⟩ := ih (map_eq_error read)
      obtain ⟨rfl, proper, ends⟩ := read_part_eq_ok_iff.mp step
      have head : ∀ more, (taken ++ halt.rest).head? = (taken ++ more).head? := by
        intro more
        rw [List.head?_append_of_ne_nil _ nonempty, List.head?_append_of_ne_nil _ nonempty]
      have hands :=
        fun more => read_parts_behind proper ((Part.ends_at_congr (head more) part).mp ends)
      exact ⟨part.print ++ taken, by simp [nonempty], by simp,
        stuck.behind _ hands fun ended => ended⟩

theorem read_component_of_single {text : Text} (single : ∀ rest, text ≠ '*' :: '*' :: rest) :
    readComponent text = (readParts text).map fun (parts, rest) => (.ofParts parts, rest) := by
  unfold readComponent
  split
  · exact absurd rfl (single _)
  · rfl

theorem read_component_stuck {text : Text} {halt : Halt} (read : readComponent text = .error halt) :
    ∃ taken, text = taken ++ halt.rest ∧ Stuck readComponent (·.2 = []) taken halt := by
  unfold readComponent at read
  split at read
  · rename_i rest
    split at read
    · cases read
    · rename_i goesOn
      cases read
      refine ⟨['*', '*'], rfl, ⟨[], (.globstar, []), rfl, rfl⟩, ?_, GrammarCause.noConfusion⟩
      intro next member more
      have head : segmentEnds (next :: more) = segmentEnds rest := by
        rw [segmentEnds, segmentEnds, Option.mem_def.mp member]
        rfl
      exact ⟨_, if_neg (head ▸ goesOn)⟩
  · rename_i single
    obtain ⟨taken, nonempty, same, stuck⟩ := read_parts_stuck (map_eq_error read)
    refine ⟨taken, same, ?_, ?_, stuck.cause⟩
    · obtain ⟨further, result, whole, ended⟩ := stuck.completes
      exact ⟨further, (.ofParts result.1, result.2), read_component_of_parts whole, ended⟩
    · intro next member more
      obtain ⟨other, refused⟩ := stuck.refuses next member more
      refine ⟨other, ?_⟩
      rw [read_component_of_single, refused]
      · rfl
      · -- Two stars in front would have been there before.
        intro behind doubled
        obtain ⟨first, others, rfl⟩ := List.exists_cons_of_ne_nil nonempty
        obtain ⟨left, rest⟩ := List.head?_eq_some_iff.mp member
        rw [rest] at same
        cases others with
        | nil => exact single left (by simp_all)
        | cons second others => exact single (others ++ next :: left) (by simp_all)

theorem read_components_behind {component : Component} {next : Char} {rest : Text}
    (spelled : component.Spelled) (legible : component.Legible)
    (separates : isSeparator next = true) :
    readComponents (component.print ++ [next] ++ rest) =
      (readComponents rest).map fun (components, rest) => (component :: components, rest) := by
  have ends : segmentEnds (next :: rest) = true := separates
  rw [List.append_assoc]
  exact read_components_of_separated (read_component_written spelled legible ends) separates

theorem read_components_stuck {text : Text} {halt : Halt}
    (read : readComponents text = .error halt) :
    ∃ taken, text = taken ++ halt.rest ∧ Stuck readComponents (·.2 = []) taken halt := by
  fun_induction readComponents text with
  | case1 text other step =>
      cases read
      obtain ⟨taken, same, stuck⟩ := read_component_stuck step
      refine ⟨taken, same, ?_, ?_, stuck.cause⟩
      · obtain ⟨further, ⟨component, _⟩, whole, rfl⟩ := stuck.completes
        exact ⟨further, ([component], []), read_components_of_last whole (by simp), rfl⟩
      · intro next member more
        obtain ⟨failed, refused⟩ := stuck.refuses next member more
        refine ⟨failed, ?_⟩
        rw [readComponents]
        split <;> simp_all
  | case2 text component step _ => cases read
  | case3 text component next more step separates _ ih =>
      obtain ⟨taken, rfl, stuck⟩ := ih (map_eq_error read)
      obtain ⟨rfl, spelled, legible, -, -⟩ := read_component_eq_ok_iff.mp step
      exact ⟨component.print ++ [next] ++ taken, by simp,
        stuck.behind _
          (fun more => read_components_behind spelled legible separates) fun ended => ended⟩
  | case4 text component next more step stops _ => cases read

theorem legal_iff_read (text : Text) :
    Legal text ↔ ∃ components, readComponents text = .ok (components, []) := by
  simp only [legal_iff_written, read_whole_iff]

/-- Whether legal texts go on from between two texts, but none with what is there. -/
structure LastViable (taken rest : Text) : Prop where
  viable : Viable taken
  last : ∀ next ∈ rest.head?, ¬Viable (taken ++ [next])

theorem Stuck.last_viable {taken : Text} {halt : Halt}
    (stuck : Stuck readComponents (·.2 = []) taken halt) : LastViable taken halt.rest := by
  constructor
  · obtain ⟨further, ⟨components, _⟩, read, rfl⟩ := stuck.completes
    exact ⟨further, (legal_iff_read _).mpr ⟨components, read⟩⟩
  · intro next member viable
    obtain ⟨further, legal⟩ := viable
    rw [List.append_assoc, legal_iff_read] at legal
    obtain ⟨components, read⟩ := legal
    obtain ⟨other, refused⟩ := stuck.refuses next member further
    rw [List.singleton_append, refused] at read
    cases read

theorem EndsBetween.last_viable {taken rest : Text} (ends : EndsBetween taken rest)
    (legal : Legal taken) : LastViable taken rest := by
  refine ⟨⟨[], by rwa [List.append_nil]⟩, ?_⟩
  intro next member viable
  obtain ⟨further, longer⟩ := viable
  rw [List.append_assoc, legal_iff_read] at longer
  obtain ⟨others, whole⟩ := longer
  obtain ⟨components, written⟩ := (legal_iff_written taken).mp legal
  have same : EndsBetween taken (next :: further) := by
    intro other head
    cases head
    exact ends next member
  rw [List.singleton_append, read_of_pieces written same] at whole
  cases whole

/-- A separator in front of a text is read as one more component, an empty one. -/
theorem read_components_body (text : Text) :
    ∃ lead, .literal ['.', '.'] ∉ lead ∧ readComponents text =
      (readComponents (body text)).map fun (components, rest) => (lead ++ components, rest) := by
  have alone : ∀ other : Text, ∃ lead, .literal ['.', '.'] ∉ lead ∧ readComponents other =
      (readComponents other).map fun (components, rest) => (lead ++ components, rest) := by
    intro other
    refine ⟨[], by simp, ?_⟩
    cases readComponents other <;> rfl
  cases text with
  | nil => exact alone []
  | cons first rest =>
      have root : startsAtRoot (first :: rest) = isSeparator first := rfl
      rw [body, root]
      cases separates : isSeparator first with
      | false => exact alone (first :: rest)
      | true =>
          have empty : (Component.literal []).Spelled := by simp [Component.Spelled]
          have ends : segmentEnds (first :: rest) = true := separates
          have read := read_component_written empty trivial ends
          exact ⟨[.literal []], by simp, read_components_of_separated read separates⟩

/-- Whether reading goes up to a place, meets nothing critical and has read `..` by then. -/
structure MeetsParent (taken rest : Text) : Prop where
  legal : Legal taken
  ends : EndsBetween taken rest
  parent : ['.', '.'] ∈ taken.split isSeparator

/-- What is known of a text by the grammar error that it is rejected with. -/
theorem read_error_cases {text : Text} {error : GrammarError} (failed : read text = .error error) :
    ∃ taken rest, text = taken ++ rest ∧
      if error.cause = .parentSegment then MeetsParent taken rest
      else error.firstByte = offsetOf text rest ∧ LastViable taken rest := by
  obtain ⟨lead, noParent, whole⟩ := read_components_body text
  rw [read] at failed
  split at failed
  · rename_i halt read
    cases failed
    rw [read] at whole
    obtain ⟨taken, same, stuck⟩ := read_components_stuck whole
    refine ⟨taken, halt.rest, same, ?_⟩
    rw [errorAt, if_neg stuck.cause]
    exact ⟨rfl, stuck.last_viable⟩
  · rename_i components rest read
    rw [read] at whole
    obtain ⟨taken, same, written, ends⟩ := pieces_of_read whole
    have legal : Legal taken := (legal_iff_written taken).mpr ⟨_, written⟩
    refine ⟨taken, rest, same, ?_⟩
    split at failed
    · rename_i found
      cases failed
      have member := List.mem_append_right lead (List.contains_iff_mem.mp found)
      exact ⟨legal, ends, (parent_written_iff written).mpr member⟩
    · split at failed
      · cases failed
      · cases failed
        exact ⟨rfl, ends.last_viable legal⟩

theorem MeetsParent.read {taken rest : Text} (meets : MeetsParent taken rest) :
    ∃ lastByte, Glob.read (taken ++ rest) = .error ⟨0, lastByte, .parentSegment⟩ := by
  obtain ⟨lead, noParent, whole⟩ := read_components_body (taken ++ rest)
  obtain ⟨components, written⟩ := (legal_iff_written taken).mp meets.legal
  have member := (parent_written_iff written).mp meets.parent
  rw [read_of_pieces written meets.ends] at whole
  cases inner : readComponents (body (taken ++ rest)) with
  | error halt =>
      rw [inner] at whole
      cases whole
  | ok result =>
      rw [inner] at whole
      cases whole
      have found : result.1.contains (.literal ['.', '.']) = true :=
        List.contains_iff_mem.mpr ((List.mem_append.mp member).resolve_left noParent)
      rw [Glob.read, inner]
      exact ⟨_, if_pos found⟩

theorem parse_grammar_error_iff {text shown : Text} {error : GrammarError} :
    parse text = .error (.malformed shown (.grammar error)) ↔
      shown = text ∧ read text = .error error := by
  rw [parse]
  cases read text with
  | error other => simp [eq_comm]
  | ok glob =>
      dsimp only
      split <;> simp

theorem offset_of_append (taken rest : Text) :
    offsetOf (taken ++ rest) rest = Text.byteLength taken := by
  rw [offsetOf, Text.byteLength_append, Nat.add_sub_cancel]

/--
A grammar error other than for `..` is reported at the first byte behind the longest part of the
text that can still be continued to a legal text: the part that ends there can, and one character
more cannot be. The error for `..` is reported exactly if reading ends without meeting anything
critical and one of the pieces read by then is `..`.
-/
theorem grammar_errors_mark_viable_part (text : Text) :
    (∀ shown error, parse text = .error (.malformed shown (.grammar error)) →
      error.cause ≠ .parentSegment → ∃ taken rest, text = taken ++ rest ∧
        error.firstByte = Text.byteLength taken ∧ Viable taken ∧
          (rest = [] ∨ ∃ next more, rest = next :: more ∧ ¬Viable (taken ++ [next]))) ∧
    ((∃ shown error, parse text = .error (.malformed shown (.grammar error)) ∧
        error.cause = .parentSegment) ↔
      ∃ taken rest, text = taken ++ rest ∧ Legal taken ∧ EndsBetween taken rest ∧
        ['.', '.'] ∈ taken.split isSeparator) := by
  refine ⟨fun shown error failed other => ?_, fun failed => ?_, fun meets => ?_⟩
  · obtain ⟨-, failed⟩ := parse_grammar_error_iff.mp failed
    obtain ⟨taken, rest, rfl, known⟩ := read_error_cases failed
    rw [if_neg other, offset_of_append] at known
    obtain ⟨position, viable, last⟩ := known
    refine ⟨taken, rest, rfl, position, viable, ?_⟩
    cases rest with
    | nil => exact .inl rfl
    | cons next more => exact .inr ⟨next, more, rfl, last next rfl⟩
  · obtain ⟨shown, error, failed, parent⟩ := failed
    obtain ⟨-, failed⟩ := parse_grammar_error_iff.mp failed
    obtain ⟨taken, rest, same, known⟩ := read_error_cases failed
    rw [if_pos parent] at known
    exact ⟨taken, rest, same, known.legal, known.ends, known.parent⟩
  · obtain ⟨taken, rest, rfl, legal, ends, parent⟩ := meets
    obtain ⟨lastByte, failed⟩ := MeetsParent.read ⟨legal, ends, parent⟩
    exact ⟨_, _, parse_grammar_error_iff.mpr ⟨rfl, failed⟩, rfl⟩

/-- In `é/../[b*` the list is refused at its `*`, eight bytes in, before `..` is looked for. -/
theorem grammar_errors_mark_viable_part_multibyte :
    ∃ error, parse ['é', '/', '.', '.', '/', '[', 'b', '*'] =
        .error (.malformed ['é', '/', '.', '.', '/', '[', 'b', '*'] (.grammar error)) ∧
      error.cause = .unclosed ']' false ∧ error.firstByte = 8 ∧
      ∃ taken rest, ['é', '/', '.', '.', '/', '[', 'b', '*'] = taken ++ rest ∧
        error.firstByte = Text.byteLength taken ∧ Viable taken ∧
          (rest = [] ∨ ∃ next more, rest = next :: more ∧ ¬Viable (taken ++ [next])) := by
  have failed : parse ['é', '/', '.', '.', '/', '[', 'b', '*'] =
      .error (.malformed ['é', '/', '.', '.', '/', '[', 'b', '*']
        (.grammar ⟨8, 8, .unclosed ']' false⟩)) := by decide +kernel
  exact ⟨_, failed, rfl, rfl,
    (grammar_errors_mark_viable_part _).1 _ _ failed GrammarCause.noConfusion⟩

end Glob

end PathGlob
