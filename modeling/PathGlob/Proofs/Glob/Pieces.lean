import Mathlib.Data.List.Forall2
import PathGlob.Proofs.Glob.Spelling

/-!
# Reading piece by piece

A text is read as a glob exactly when each of its pieces between separators is written by a
component. Whichever of the two separators stands where makes no difference, nor does what the other
pieces are: a piece has one component at most, and the glob is the tidied list of them.
-/
namespace PathGlob

set_option autoImplicit false

structure Component.WrittenAs (piece : Text) (component : Component) : Prop where
  print : component.print = piece
  spelled : component.Spelled
  legible : component.Legible

namespace Text

/-- A text is its first piece or goes on behind it with a separator and the other pieces. -/
theorem split_eq_cons {cut : Char → Bool} {text piece : Text} {pieces : List Text}
    (split : split cut text = piece :: pieces) :
    (text = piece ∧ pieces = []) ∨ ∃ separator rest, cut separator = true ∧
      text = piece ++ separator :: rest ∧ Text.split cut rest = pieces := by
  induction text generalizing piece pieces with
  | nil =>
      cases split
      exact .inl ⟨rfl, rfl⟩
  | cons first rest ih =>
      rw [Text.split] at split
      split at split
      · rename_i cuts
        cases split
        exact .inr ⟨first, rest, cuts, rfl, rfl⟩
      · cases others : Text.split cut rest with
        | nil => exact absurd others (split_ne_nil cut rest)
        | cons head tail =>
            rw [others] at split
            cases split
            rcases ih others with ⟨rfl, rfl⟩ | ⟨separator, behind, cuts, rfl, same⟩
            · exact .inl ⟨rfl, rfl⟩
            · exact .inr ⟨separator, behind, cuts, rfl, same⟩

end Text

theorem Part.Proper.separator_free {part : Part} (proper : part.Proper) :
    ∀ character ∈ part.print, Path.isSeparator character = false := by
  intro character member
  cases part with
  | star =>
      rw [List.mem_singleton.mp member]
      rfl
  | literal run => exact separator_free_of_plain proper.plain character member
  | oneOf characters =>
      have inside : character = '[' ∨ character ∈ characters ∨ character = ']' := by
        simpa [Part.print] using member
      rcases inside with rfl | listed | rfl
      · rfl
      · exact separator_free_of_plain proper.plain character listed
      · rfl
  | placeholder name =>
      have inside : character = '{' ∨ character ∈ name ∨ character = '}' := by
        simpa [Part.print] using member
      rcases inside with rfl | named | rfl
      · rfl
      · rw [Bool.eq_false_iff]
        intro separates
        have accepted := proper.2 character named
        rw [Path.isSeparator, Bool.or_eq_true, beq_iff_eq, beq_iff_eq] at separates
        rcases separates with rfl | rfl <;> exact absurd accepted (by decide)
      · rfl

theorem Component.Spelled.separator_free {component : Component} (spelled : component.Spelled) :
    ∀ character ∈ component.print, Path.isSeparator character = false := by
  intro character member
  cases component with
  | literal text => exact separator_free_of_plain spelled character member
  | compound parts =>
      rcases List.mem_flatMap.mp member with ⟨part, among, inside⟩
      exact (spelled.2 part among).separator_free character inside
  | globstar =>
      have star : character = '*' := by simpa [print] using member
      rw [star]
      rfl

namespace Component

theorem read_of_written {piece : Text} {component : Component}
    (written : WrittenAs piece component) :
    Glob.readComponent piece = .ok (component, []) := by
  have ends : Glob.segmentEnds [] = true := rfl
  have read := Glob.read_component_written written.spelled written.legible ends
  rwa [List.append_nil, written.print] at read

theorem written_of_read {piece : Text} {component : Component}
    (read : Glob.readComponent piece = .ok (component, [])) : WrittenAs piece component := by
  obtain ⟨same, spelled, legible, -, -⟩ := Glob.read_component_eq_ok_iff.mp read
  exact ⟨by rw [same, List.append_nil], spelled, legible⟩

namespace WrittenAs

variable {piece : Text} {component other : Component}

theorem unique (written : WrittenAs piece component) (again : WrittenAs piece other) :
    component = other := by
  have same := (read_of_written written).symm.trans (read_of_written again)
  simpa using same

theorem eq_literal_iff (written : WrittenAs piece component) {text : Text}
    (plain : ∀ character ∈ text, isSpecial character = false) :
    component = .literal text ↔ piece = text := by
  constructor
  · rintro rfl
    exact written.print.symm
  · rintro rfl
    exact written.unique ⟨rfl, plain, trivial⟩

theorem eq_globstar_iff (written : WrittenAs piece component) :
    component = .globstar ↔ piece = ['*', '*'] := by
  constructor
  · rintro rfl
    exact written.print.symm
  · rintro rfl
    exact written.unique ⟨rfl, trivial, trivial⟩

end WrittenAs

end Component

namespace Glob

open PathGlob.Path

/--
Whether reading can end between two texts: nothing is left over, or it starts with a bracket or `;`
that no segment takes. Behind `**` such a character is refused and not left over.
-/
def EndsBetween (taken rest : Text) : Prop :=
  ∀ next ∈ rest.head?, next ∈ [']', '}', ';'] ∧ (taken.split isSeparator).getLast? ≠ some ['*', '*']

theorem ends_between_behind {piece taken rest : Text} {separator : Char}
    (kept : ∀ character ∈ piece, isSeparator character = false)
    (separates : isSeparator separator = true) :
    EndsBetween (piece ++ separator :: taken) rest ↔ EndsBetween taken rest := by
  rw [EndsBetween, EndsBetween, split_append_cut taken kept separates,
    List.getLast?_cons_of_ne_nil (Text.split_ne_nil isSeparator taken)]

theorem EndsBetween.starts_no_part {taken rest : Text} (ends : EndsBetween taken rest) :
    StartsNoPart rest := by
  intro next member
  have bracket := (ends next member).1
  simp only [List.mem_cons, List.not_mem_nil, or_false] at bracket ⊢
  rcases bracket with rfl | rfl | rfl <;> simp

theorem EndsBetween.no_separator {taken rest : Text} (ends : EndsBetween taken rest) :
    ∀ next ∈ rest.head?, isSeparator next = false := by
  intro next member
  have bracket := (ends next member).1
  simp only [List.mem_cons, List.not_mem_nil, or_false] at bracket
  rcases bracket with rfl | rfl | rfl <;> rfl

theorem ends_between_of_stopped {component : Component} {next : Char} {more : Text}
    (read : readComponent (component.print ++ next :: more) = .ok (component, next :: more))
    (stops : isSeparator next = false) : EndsBetween component.print (next :: more) := by
  obtain ⟨-, spelled, legible, noPart, globstar⟩ := read_component_eq_ok_iff.mp read
  have bracket := noPart next rfl
  simp only [List.mem_cons, List.not_mem_nil, or_false] at bracket
  intro other member
  cases member
  rw [Text.split_of_none isSeparator _ spelled.separator_free]
  constructor
  · rcases bracket with rfl | rfl | rfl | rfl | rfl
    · simp
    · simp
    · cases stops
    · cases stops
    · simp
  · intro doubled
    have written : Component.WrittenAs component.print component := ⟨rfl, spelled, legible⟩
    have ends : isSeparator next = true :=
      globstar (written.eq_globstar_iff.mpr (Option.some.inj doubled))
    rw [ends] at stops
    cases stops

theorem pieces_of_read {text rest : Text} {components : List Component}
    (read : readComponents text = .ok (components, rest)) :
    ∃ taken, text = taken ++ rest ∧
      List.Forall₂ Component.WrittenAs (taken.split isSeparator) components ∧
      EndsBetween taken rest := by
  -- On the recursion of the reader: each component is one piece, since it writes no separator.
  fun_induction readComponents text generalizing components rest with
  | case1 text halt step => cases read
  | case2 text component step _ =>
      cases read
      have written := Component.written_of_read step
      refine ⟨text, (List.append_nil text).symm, ?_, by simp [EndsBetween]⟩
      rw [← written.print, Text.split_of_none isSeparator _ written.spelled.separator_free]
      exact .cons ⟨rfl, written.spelled, written.legible⟩ .nil
  | case3 text component next more step separates _ ih =>
      cases others : readComponents more with
      | error halt => simp [others, Except.map] at read
      | ok result =>
          simp only [others, Except.map, Except.ok.injEq, Prod.mk.injEq] at read
          obtain ⟨rfl, rfl⟩ := read
          obtain ⟨rfl, spelled, legible, -, -⟩ := read_component_eq_ok_iff.mp step
          obtain ⟨taken, rfl, written, ends⟩ := ih others
          refine ⟨component.print ++ next :: taken, by simp, ?_,
            (ends_between_behind spelled.separator_free separates).mpr ends⟩
          rw [split_append_cut taken spelled.separator_free separates]
          exact .cons ⟨rfl, spelled, legible⟩ written
  | case4 text component next more step stops _ =>
      cases read
      obtain ⟨rfl, spelled, legible, -, -⟩ := read_component_eq_ok_iff.mp step
      refine ⟨component.print, rfl, ?_, ends_between_of_stopped step (by simpa using stops)⟩
      rw [Text.split_of_none isSeparator _ spelled.separator_free]
      exact .cons ⟨rfl, spelled, legible⟩ .nil

theorem read_of_pieces {taken rest : Text} {components : List Component}
    (written : List.Forall₂ Component.WrittenAs (taken.split isSeparator) components)
    (ends : EndsBetween taken rest) : readComponents (taken ++ rest) = .ok (components, rest) := by
  generalize same : taken.split isSeparator = pieces at written
  induction written generalizing taken with
  | nil => exact absurd same (Text.split_ne_nil isSeparator taken)
  | @cons piece component pieces components first written ih =>
      obtain ⟨rfl, spelled, legible⟩ := first
      rcases Text.split_eq_cons same with ⟨rfl, rfl⟩ | ⟨separator, behind, separates, rfl, others⟩
      · cases written with
        | nil =>
            apply read_components_of_last _ ends.no_separator
            refine read_component_eq_ok_iff.mpr ⟨rfl, spelled, legible, ends.starts_no_part, ?_⟩
            rintro rfl
            cases rest with
            | nil => rfl
            | cons next more => exact absurd rfl (ends next rfl).2
      · rw [ends_between_behind spelled.separator_free separates] at ends
        have next : segmentEnds (separator :: (behind ++ rest)) = true := separates
        have read := read_component_written spelled legible next
        rw [List.append_assoc, List.cons_append, read_components_of_separated read separates,
          ih ends others]
        rfl

/-- A text is read to its end exactly when each of its pieces is written by a component. -/
theorem read_whole_iff {text : Text} {components : List Component} :
    readComponents text = .ok (components, []) ↔
      List.Forall₂ Component.WrittenAs (text.split isSeparator) components := by
  constructor
  · intro read
    obtain ⟨taken, same, written, -⟩ := pieces_of_read read
    rwa [same, List.append_nil]
  · intro written
    have ends : EndsBetween text [] := by simp [EndsBetween]
    simpa using read_of_pieces written ends

structure Spells (text : Text) (components : List Component) : Prop where
  pieces : List.Forall₂ Component.WrittenAs ((body text).split isSeparator) components
  noParent : .literal ['.', '.'] ∉ components

theorem read_eq_ok_iff {text : Text} {glob : Glob} :
    read text = .ok glob ↔
      ∃ components,
        Spells text components ∧ glob = ⟨startsAtRoot text, Component.tidy components⟩ := by
  constructor
  · intro spelled
    rw [read] at spelled
    split at spelled
    · cases spelled
    · rename_i components rest taken
      split at spelled
      · cases spelled
      · rename_i unmatched
        split at spelled
        · rename_i finished
          cases spelled
          rw [List.isEmpty_iff.mp finished] at taken
          exact ⟨components, ⟨read_whole_iff.mp taken, mt List.contains_iff_mem.mpr unmatched⟩, rfl⟩
        · cases spelled
  · intro spelled
    rcases spelled with ⟨components, ⟨pieces, noParent⟩, rfl⟩
    have unmatched : components.contains (.literal ['.', '.']) = false := by
      rw [Bool.eq_false_iff]
      exact mt List.contains_iff_mem.mp noParent
    rw [read, read_whole_iff.mpr pieces]
    dsimp only
    rw [unmatched]
    rfl

theorem parse_eq_ok_iff_read {text : Text} {glob : Glob} :
    parse text = .ok glob ↔ read text = .ok glob ∧ glob.components ≠ [] := by
  rw [parse]
  constructor
  · intro parsed
    split at parsed
    · cases parsed
    · rename_i other spelled
      split at parsed
      · cases parsed
      · rename_i some
        cases parsed
        exact ⟨spelled, mt List.isEmpty_iff.mpr some⟩
  · intro both
    rw [both.1]
    exact if_neg (mt List.isEmpty_iff.mp both.2)

/-- What it takes for a text to spell a glob, said of its pieces. -/
theorem parse_eq_ok_iff {text : Text} {glob : Glob} :
    parse text = .ok glob ↔
      ∃ components, Spells text components ∧ Component.tidy components ≠ [] ∧
        glob = ⟨startsAtRoot text, Component.tidy components⟩ := by
  rw [parse_eq_ok_iff_read, read_eq_ok_iff]
  constructor
  · intro both
    rcases both with ⟨⟨components, spells, rfl⟩, nonempty⟩
    exact ⟨components, spells, nonempty, rfl⟩
  · intro spelled
    rcases spelled with ⟨components, spells, nonempty, rfl⟩
    exact ⟨⟨components, spells, rfl⟩, nonempty⟩

end Glob

end PathGlob
