import Mathlib.Data.List.Chain
import PathGlob.Proofs.Glob.Proper
import PathGlob.Proofs.Path.Names

/-!
# What the readers take

Each reader is shown to take exactly what its result writes. A part is read off a text when the text
goes on with the part and then with something that the part would not have taken along; a segment is
read when no two of its parts would have been read as one. Both directions are stated at once, so
that writing what was read and reading what was written need no argument of their own.
-/
namespace PathGlob

set_option autoImplicit false

/-- Whether a part that is followed by the text is over: what follows is not taken along. -/
def Part.EndsAt (rest : Text) : Part → Prop
  | .star => rest.head? ≠ some '*'
  | .literal _ => ∀ next ∈ rest.head?, isSpecial next = true
  | .oneOf _ => True
  | .placeholder _ => True

def Part.runsInto : Part → Part → Bool
  | .star, .star => true
  | .literal _, .literal _ => true
  | _, _ => false

def Part.Apart (left right : Part) : Prop := left.runsInto right = false

instance : DecidableRel Part.Apart := fun _ _ => inferInstanceAs (Decidable (_ = false))

/--
Whether a component is written as it was read: no literal passes for parts, no parts run together.
-/
def Component.Legible : Component → Prop
  | .compound parts => (∀ text, parts ≠ [.literal text]) ∧ parts.IsChain Part.Apart
  | _ => True

namespace Glob

def StartsNoPart (text : Text) : Prop :=
  ∀ next ∈ text.head?, next ∈ [']', '}', '/', '\\', ';']

theorem take_while_then {accepts : Char → Bool} {body rest : Text}
    (accepted : ∀ character ∈ body, accepts character = true)
    (refused : ∀ next ∈ rest.head?, accepts next = false) :
    (body ++ rest).takeWhile accepts = body ∧ (body ++ rest).dropWhile accepts = rest := by
  rw [List.takeWhile_append_of_pos accepted, List.dropWhile_append_of_pos accepted]
  cases rest with
  | nil => simp
  | cons next rest =>
      have stops : ¬accepts next = true := by simp [refused next rfl]
      rw [List.takeWhile_cons_of_neg stops, List.dropWhile_cons_of_neg stops, List.append_nil]
      exact ⟨rfl, rfl⟩

theorem read_enclosed_eq_ok_iff {accepts : Char → Bool} {closing : Char} {lacking : GrammarCause}
    (refused : accepts closing = false) {text body rest : Text} :
    readEnclosed accepts closing lacking text = .ok (body, rest) ↔
      text = body ++ closing :: rest ∧ body ≠ [] ∧
      ∀ character ∈ body, accepts character = true := by
  constructor
  · intro read
    obtain ⟨nonempty, taken⟩ := read_enclosed_accepted read
    have whole := List.takeWhile_append_dropWhile (p := accepts) (l := text)
    have accepted : ∀ character ∈ body, accepts character = true := by
      intro character member
      rw [← taken] at member
      exact List.mem_takeWhile_imp member
    refine ⟨?_, nonempty, accepted⟩
    unfold readEnclosed at read
    rw [taken] at read whole
    cases left : text.dropWhile accepts with
    | nil => cases body <;> simp [left] at read
    | cons next more =>
        cases body with
        | nil => exact absurd rfl nonempty
        | cons first others =>
            simp only [left] at read
            split at read
            · rename_i closes
              cases read
              rw [← whole, left, closes]
            · cases read
  · intro spelled
    obtain ⟨rfl, nonempty, accepted⟩ := spelled
    have closes : ∀ next ∈ (closing :: rest).head?, accepts next = false := by simp [refused]
    obtain ⟨taken, left⟩ := take_while_then accepted closes
    obtain ⟨first, others, rfl⟩ := List.exists_cons_of_ne_nil nonempty
    rw [readEnclosed, taken, left]
    simp

theorem ordinary_of_plain {text : Text} (plain : ∀ character ∈ text, isSpecial character = false) :
    ∀ character ∈ text, isOrdinary character = true := by
  intro character member
  simp [isOrdinary, plain character member]

theorem read_part_of_star {rest : Text} (single : rest.head? ≠ some '*') :
    readPart? ('*' :: rest) = .ok (some (.star, rest)) := by
  rw [readPart?]
  intro others same
  simp [same] at single

theorem read_part_of_run {run rest : Text} (isRun : IsRun run)
    (ends : ∀ next ∈ rest.head?, isSpecial next = true) :
    readPart? (run ++ rest) = .ok (some (.literal run, rest)) := by
  have refused : ∀ next ∈ rest.head?, isOrdinary next = false := by
    intro next member
    simp [isOrdinary, ends next member]
  obtain ⟨taken, left⟩ := take_while_then (ordinary_of_plain isRun.plain) refused
  obtain ⟨first, others, rfl⟩ := List.exists_cons_of_ne_nil isRun.nonempty
  have plain : isSpecial first = false := isRun.plain first List.mem_cons_self
  rw [readPart?, taken, left]
  all_goals
    intro others same
    rw [List.cons_append, List.cons.injEq] at same
    rw [same.1] at plain
    cases plain

theorem read_part_of_enclosed {characters rest : Text} (isRun : IsRun characters) :
    readPart? ('[' :: (characters ++ ']' :: rest)) = .ok (some (.oneOf characters, rest)) := by
  have enclosed : readEnclosed isOrdinary ']' .noAlternative (characters ++ ']' :: rest) =
      .ok (characters, rest) :=
    (read_enclosed_eq_ok_iff rfl).mpr ⟨rfl, isRun.nonempty, ordinary_of_plain isRun.plain⟩
  rw [readPart?, enclosed]
  rfl

theorem read_part_of_name {name rest : Text} (nonempty : name ≠ [])
    (accepted : ∀ character ∈ name, isNameCharacter character = true) :
    readPart? ('{' :: (name ++ '}' :: rest)) = .ok (some (.placeholder name, rest)) := by
  have enclosed : readEnclosed isNameCharacter '}' .noName (name ++ '}' :: rest) =
      .ok (name, rest) :=
    (read_enclosed_eq_ok_iff (by decide)).mpr ⟨rfl, nonempty, accepted⟩
  rw [readPart?, enclosed]
  rfl

theorem special_of_left_over {text : Text} :
    ∀ next ∈ (text.dropWhile isOrdinary).head?, isSpecial next = true := by
  intro next member
  have refused := List.head?_dropWhile_not isOrdinary text
  rw [Option.mem_def.mp member] at refused
  simpa [isOrdinary] using refused

theorem spelled_of_read_part {text rest : Text} {part : Part}
    (read : readPart? text = .ok (some (part, rest))) :
    text = part.print ++ rest ∧ part.EndsAt rest := by
  simp only [readPart?] at read
  split at read
  · cases read
  · rename_i single
    cases read
    refine ⟨rfl, ?_⟩
    intro doubled
    obtain ⟨others, same⟩ := List.head?_eq_some_iff.mp doubled
    exact single others same
  · rename_i inner
    cases enclosed : readEnclosed isOrdinary ']' .noAlternative inner with
    | error halt => simp [enclosed, Except.map] at read
    | ok result =>
        obtain ⟨same, -⟩ := (read_enclosed_eq_ok_iff rfl).mp enclosed
        simp only [enclosed, Except.map, Except.ok.injEq, Option.some.injEq, Prod.mk.injEq] at read
        obtain ⟨rfl, rfl⟩ := read
        exact ⟨by simp [same, Part.print], trivial⟩
  · rename_i inner
    cases enclosed : readEnclosed isNameCharacter '}' .noName inner with
    | error halt => simp [enclosed, Except.map] at read
    | ok result =>
        obtain ⟨same, -⟩ := (read_enclosed_eq_ok_iff (by decide)).mp enclosed
        simp only [enclosed, Except.map, Except.ok.injEq, Option.some.injEq, Prod.mk.injEq] at read
        obtain ⟨rfl, rfl⟩ := read
        exact ⟨by simp [same, Part.print], trivial⟩
  · split at read
    · cases read
    · cases read
      exact ⟨List.takeWhile_append_dropWhile.symm, special_of_left_over⟩

/--
A part is read when a text goes on with it and then with something that it does not take along.
-/
theorem read_part_eq_ok_iff {text rest : Text} {part : Part} :
    readPart? text = .ok (some (part, rest)) ↔
      text = part.print ++ rest ∧ part.Proper ∧ part.EndsAt rest := by
  constructor
  · intro read
    obtain ⟨spelled, ends⟩ := spelled_of_read_part read
    exact ⟨spelled, read_part_proper read, ends⟩
  · intro spelled
    obtain ⟨rfl, proper, ends⟩ := spelled
    cases part with
    | star => exact read_part_of_star ends
    | literal run => exact read_part_of_run proper ends
    | oneOf characters => simpa [Part.print] using read_part_of_enclosed proper
    | placeholder name => simpa [Part.print] using read_part_of_name proper.1 proper.2

theorem special_iff (character : Char) :
    isSpecial character = true ↔
      character ∈ ['*', '[', '{'] ∨ character ∈ [']', '}', '/', '\\', ';'] := by
  simp only [isSpecial, List.contains_cons, List.contains_nil, Bool.or_false, Bool.or_eq_true,
    beq_iff_eq, List.mem_cons, List.not_mem_nil, or_false]
  grind

theorem read_part_eq_none_iff {text : Text} : readPart? text = .ok none ↔ StartsNoPart text := by
  constructor
  · intro read next member
    obtain ⟨rest, rfl⟩ := List.head?_eq_some_iff.mp member
    simp only [readPart?] at read
    split at read
    · cases read
    · cases read
    · rename_i inner _
      cases enclosed : readEnclosed isOrdinary ']' .noAlternative inner <;>
        simp [enclosed, Except.map] at read
    · rename_i inner _
      cases enclosed : readEnclosed isNameCharacter '}' .noName inner <;>
        simp [enclosed, Except.map] at read
    · rename_i notStar notOpen notBrace
      split at read
      · rename_i none
        have special : isSpecial next = true := by
          simpa [List.takeWhile_cons, isOrdinary] using none
        rcases (special_iff next).mp special with opens | stops
        · simp only [List.mem_cons, List.not_mem_nil, or_false] at opens
          rcases opens with rfl | rfl | rfl
          · exact absurd rfl (notStar rest)
          · exact absurd rfl (notOpen rest)
          · exact absurd rfl (notBrace rest)
        · exact stops
      · cases read
  · intro none
    cases text with
    | nil => rfl
    | cons next rest =>
        have stops := none next rfl
        simp only [List.mem_cons, List.not_mem_nil, or_false] at stops
        rcases stops with rfl | rfl | rfl | rfl | rfl <;> rfl

theorem Part.ends_at_print_iff {part next : Part} (proper : next.Proper) (rest : Text) :
    part.EndsAt (next.print ++ rest) ↔ part.Apart next := by
  cases next with
  | star => cases part <;> simp [Part.EndsAt, Part.Apart, Part.runsInto, Part.print, isSpecial]
  | literal run =>
      obtain ⟨first, run, rfl⟩ := List.exists_cons_of_ne_nil proper.nonempty
      have plain : isSpecial first = false := proper.plain first List.mem_cons_self
      have other : first ≠ '*' := by
        rintro rfl
        cases plain
      cases part <;> simp [Part.EndsAt, Part.Apart, Part.runsInto, Part.print, plain, other]
  | oneOf characters =>
      cases part <;> simp [Part.EndsAt, Part.Apart, Part.runsInto, Part.print, isSpecial]
  | placeholder name =>
      cases part <;> simp [Part.EndsAt, Part.Apart, Part.runsInto, Part.print, isSpecial]

theorem StartsNoPart.ends_at {rest : Text} (stops : StartsNoPart rest) (part : Part) :
    part.EndsAt rest := by
  cases part with
  | star =>
      intro starred
      exact absurd (stops _ starred) (by decide)
  | literal run =>
      intro next member
      exact (special_iff next).mpr (.inr (stops next member))
  | oneOf characters => trivial
  | placeholder name => trivial

theorem read_parts_of_none {text : Text} (read : readPart? text = .ok none) :
    readParts text = .ok ([], text) := by
  rw [readParts]
  split <;> simp_all

theorem read_parts_of_some {text rest : Text} {part : Part}
    (read : readPart? text = .ok (some (part, rest))) :
    readParts text = (readParts rest).map fun (parts, rest) => (part :: parts, rest) := by
  rw [readParts]
  split <;> simp_all

/-- The parts of a segment are read as they stand, up to where no part starts. -/
theorem read_parts_eq_ok_iff {text rest : Text} {parts : List Part} :
    readParts text = .ok (parts, rest) ↔
      text = parts.flatMap Part.print ++ rest ∧ (∀ part ∈ parts, part.Proper) ∧
        parts.IsChain Part.Apart ∧ StartsNoPart rest := by
  constructor
  · intro read
    fun_induction readParts text generalizing parts rest with
    | case1 text halt step => cases read
    | case2 text step =>
        cases read
        exact ⟨rfl, by simp, .nil, read_part_eq_none_iff.mp step⟩
    | case3 text part left step ih =>
        cases more : readParts left with
        | error halt => simp [more, Except.map] at read
        | ok result =>
            simp only [more, Except.map, Except.ok.injEq, Prod.mk.injEq] at read
            obtain ⟨rfl, rfl⟩ := read
            obtain ⟨rfl, first, ends⟩ := read_part_eq_ok_iff.mp step
            obtain ⟨rest, others, apart, stops⟩ := ih more
            refine ⟨by simp [← rest], List.forall_mem_cons.mpr ⟨first, others⟩, ?_, stops⟩
            refine List.isChain_cons.mpr ⟨?_, apart⟩
            intro next member
            obtain ⟨later, same⟩ := List.head?_eq_some_iff.mp member
            rw [rest, same, List.flatMap_cons, List.append_assoc] at ends
            exact (Part.ends_at_print_iff (others next (by simp [same])) _).mp ends
  · intro spelled
    obtain ⟨rfl, proper, apart, stops⟩ := spelled
    induction parts with
    | nil => exact read_parts_of_none (read_part_eq_none_iff.mpr stops)
    | cons part parts ih =>
        obtain ⟨first, others⟩ := List.forall_mem_cons.mp proper
        obtain ⟨neighbour, apart⟩ := List.isChain_cons.mp apart
        have ends : part.EndsAt (parts.flatMap Part.print ++ rest) := by
          cases parts with
          | nil => exact stops.ends_at part
          | cons next parts =>
              rw [List.flatMap_cons, List.append_assoc]
              exact (Part.ends_at_print_iff (others next List.mem_cons_self) _).mpr
                (neighbour next rfl)
        rw [List.flatMap_cons, List.append_assoc,
          read_parts_of_some (read_part_eq_ok_iff.mpr ⟨rfl, first, ends⟩), ih others apart]
        rfl

end Glob

namespace Component

theorem print_of_parts (parts : List Part) : (ofParts parts).print = parts.flatMap Part.print := by
  unfold ofParts
  split
  · rfl
  · simp [print, Part.print]
  · rfl

theorem of_parts_ne_globstar (parts : List Part) : ofParts parts ≠ .globstar := by
  unfold ofParts
  split <;> exact Component.noConfusion

theorem of_parts_legible {parts : List Part} (apart : parts.IsChain Part.Apart) :
    (ofParts parts).Legible := by
  unfold ofParts
  split
  · trivial
  · trivial
  · rename_i several
    exact ⟨several, apart⟩

theorem eq_of_parts {component : Component} (spelled : component.Spelled)
    (legible : component.Legible) (segment : component ≠ .globstar) :
    ∃ parts, component = ofParts parts ∧ (∀ part ∈ parts, part.Proper) ∧
    parts.IsChain Part.Apart := by
  cases component with
  | literal text =>
      by_cases none : text = []
      · subst none
        exact ⟨[], rfl, by simp, .nil⟩
      · exact ⟨[.literal text], rfl, by simpa using ⟨none, spelled⟩, .singleton _⟩
  | compound parts =>
      refine ⟨parts, ?_, spelled.2, legible.2⟩
      unfold ofParts
      split
      · exact absurd rfl spelled.1
      · exact absurd rfl (legible.1 _)
      · rfl
  | globstar => exact absurd rfl segment

end Component

namespace Glob

open PathGlob.Path

theorem starts_no_part_of_segment_ends {text : Text} (ends : segmentEnds text = true) :
    StartsNoPart text := by
  intro next member
  rw [segmentEnds, Option.mem_def.mp member, Option.all_some, isSeparator, Bool.or_eq_true,
    beq_iff_eq, beq_iff_eq] at ends
  rcases ends with rfl | rfl <;> decide

theorem read_component_of_parts {text rest : Text} {parts : List Part}
    (read : readParts text = .ok (parts, rest)) :
    readComponent text = .ok (.ofParts parts, rest) := by
  unfold readComponent
  split
  · rename_i inner
    have doubled : readPart? ('*' :: '*' :: inner) = .error ⟨'*' :: inner, .doubledStar⟩ := rfl
    rw [readParts] at read
    split at read <;> simp_all
  · rw [read]
    rfl

/-- A component is read when a text goes on with it and then with something that ends a segment. -/
theorem read_component_eq_ok_iff {text rest : Text} {component : Component} :
    readComponent text = .ok (component, rest) ↔
      text = component.print ++ rest ∧ component.Spelled ∧ component.Legible ∧ StartsNoPart rest ∧
        (component = .globstar → segmentEnds rest = true) := by
  constructor
  · intro read
    have spelled := read_component_spelled read
    unfold readComponent at read
    split at read
    · split at read
      · rename_i ends
        cases read
        exact ⟨rfl, trivial, trivial, starts_no_part_of_segment_ends ends, fun _ => ends⟩
      · cases read
    · cases parts : readParts text with
      | error halt => simp [parts, Except.map] at read
      | ok result =>
          simp only [parts, Except.map, Except.ok.injEq, Prod.mk.injEq] at read
          obtain ⟨rfl, rfl⟩ := read
          obtain ⟨same, -, apart, stops⟩ := read_parts_eq_ok_iff.mp parts
          refine ⟨by rw [Component.print_of_parts, same], spelled, Component.of_parts_legible apart,
            stops, ?_⟩
          exact fun globstar => absurd globstar (Component.of_parts_ne_globstar _)
  · intro written
    obtain ⟨rfl, spelled, legible, stops, ends⟩ := written
    by_cases globstar : component = .globstar
    · subst globstar
      exact if_pos (ends rfl)
    · obtain ⟨parts, rfl, proper, chain⟩ := Component.eq_of_parts spelled legible globstar
      apply read_component_of_parts
      exact read_parts_eq_ok_iff.mpr ⟨by rw [Component.print_of_parts], proper, chain, stops⟩

theorem read_components_legible {text rest : Text} {components : List Component}
    (read : readComponents text = .ok (components, rest)) :
    ∀ component ∈ components, component.Legible := by
  intro component member
  obtain ⟨start, left, step⟩ := of_mem_read_components read component member
  exact (read_component_eq_ok_iff.mp step).2.2.1

theorem segment_ends_slashed (names : List Text) : segmentEnds (slashed names) = true := by
  cases names with
  | nil => rfl
  | cons name names => rfl

theorem read_components_of_last {text rest : Text} {component : Component}
    (read : readComponent text = .ok (component, rest))
    (stops : ∀ next ∈ rest.head?, isSeparator next = false) :
    readComponents text = .ok ([component], rest) := by
  rw [readComponents]
  split
  · simp_all
  · rename_i other left step
    rw [read, Except.ok.injEq, Prod.mk.injEq] at step
    obtain ⟨rfl, rfl⟩ := step
    cases rest with
    | nil => rfl
    | cons next more => simp [stops next rfl]

theorem read_components_of_separated {text more : Text} {component : Component} {separator : Char}
    (read : readComponent text = .ok (component, separator :: more))
    (separates : isSeparator separator = true) :
    readComponents text =
      (readComponents more).map fun (components, rest) => (component :: components, rest) := by
  rw [readComponents]
  split
  · simp_all
  · rename_i other rest step
    rw [read, Except.ok.injEq, Prod.mk.injEq] at step
    obtain ⟨rfl, rfl⟩ := step
    simp [separates]

theorem read_component_written {component : Component} {rest : Text} (spelled : component.Spelled)
    (legible : component.Legible) (ends : segmentEnds rest = true) :
    readComponent (component.print ++ rest) = .ok (component, rest) :=
  read_component_eq_ok_iff.mpr
    ⟨rfl, spelled, legible, starts_no_part_of_segment_ends ends, fun _ => ends⟩

theorem read_components_written {component : Component} {components : List Component}
    (spelled : ∀ other ∈ component :: components, other.Spelled)
    (legible : ∀ other ∈ component :: components, other.Legible) :
    readComponents (component.print ++ slashed (components.map Component.print)) =
      .ok (component :: components, []) := by
  induction components generalizing component with
  | nil =>
      apply read_components_of_last _ (by simp)
      exact read_component_written (spelled _ List.mem_cons_self) (legible _ List.mem_cons_self) rfl
  | cons next components ih =>
      have first :=
        read_component_written (spelled _ List.mem_cons_self) (legible _ List.mem_cons_self)
        (segment_ends_slashed ((next :: components).map Component.print))
      have others := ih (List.forall_mem_cons.mp spelled).2 (List.forall_mem_cons.mp legible).2
      rw [List.map_cons, slashed_cons] at first ⊢
      rw [read_components_of_separated first slash_separator, others]
      rfl

end Glob

end PathGlob
