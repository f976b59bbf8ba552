import Mathlib.Data.List.TakeWhile
import PathGlob.Glob.Reader

/-!
# The globs that texts spell

Reading a glob makes no component without a meaning: literals and lists are nonempty and free of
special characters, a segment has at least one part, no literal is `.` or `..`, and there is at
least one component. Everything that matching and walking rest on is stated here as `Glob.Proper`
and follows from the readers alone.
-/
namespace PathGlob

set_option autoImplicit false

structure IsRun (text : Text) : Prop where
  nonempty : text ≠ []
  plain : ∀ character ∈ text, isSpecial character = false

def Part.Proper : Part → Prop
  | .star => True
  | .literal text => IsRun text
  | .oneOf characters => IsRun characters
  | .placeholder name => name ≠ [] ∧ ∀ character ∈ name, Glob.isNameCharacter character = true

/-- What reading one segment makes. Idle components and `..` are still among it. -/
def Component.Spelled : Component → Prop
  | .literal text => ∀ character ∈ text, isSpecial character = false
  | .compound parts => parts ≠ [] ∧ ∀ part ∈ parts, part.Proper
  | .globstar => True

structure Component.Proper (component : Component) : Prop where
  spelled : component.Spelled
  busy : component.isIdle = false
  notParent : component ≠ .literal ['.', '.']

structure Glob.Proper (glob : Glob) : Prop where
  nonempty : glob.components ≠ []
  components : ∀ component ∈ glob.components, component.Proper

theorem separator_is_special {character : Char} (separates : Path.isSeparator character = true) :
    isSpecial character = true := by
  rw [Path.isSeparator, Bool.or_eq_true, beq_iff_eq, beq_iff_eq] at separates
  rcases separates with rfl | rfl <;> decide

theorem separator_free_of_plain {text : Text}
    (plain : ∀ character ∈ text, isSpecial character = false) :
    ∀ character ∈ text, Path.isSeparator character = false := by
  intro character member
  rw [Bool.eq_false_iff]
  intro separates
  exact absurd (separator_is_special separates) (by simp [plain character member])

namespace Glob

theorem run_of_take_while {text run : Text} (nonempty : run ≠ [])
    (taken : text.takeWhile isOrdinary = run) : IsRun run := by
  refine ⟨nonempty, fun character member => ?_⟩
  rw [← taken] at member
  have ordinary := List.mem_takeWhile_imp member
  simpa [isOrdinary] using ordinary

theorem read_enclosed_accepted {accepts : Char → Bool} {closing : Char} {lacking : GrammarCause}
    {text body rest : Text} (read : readEnclosed accepts closing lacking text = .ok (body, rest)) :
    body ≠ [] ∧ text.takeWhile accepts = body := by
  unfold readEnclosed at read
  cases left : text.dropWhile accepts with
  | nil => cases taken : text.takeWhile accepts <;> simp [left, taken] at read
  | cons next more =>
      cases taken : text.takeWhile accepts with
      | nil => simp [left, taken] at read
      | cons first others =>
          simp only [left, taken] at read
          split at read
          · cases read
            exact ⟨List.cons_ne_nil _ _, rfl⟩
          · cases read

theorem read_part_proper {text rest : Text} {part : Part}
    (read : readPart? text = .ok (some (part, rest))) : part.Proper := by
  simp only [readPart?] at read
  split at read
  · cases read
  · cases read
    trivial
  · rename_i inner
    cases enclosed : readEnclosed isOrdinary ']' .noAlternative inner with
    | error halt => simp [enclosed, Except.map] at read
    | ok result =>
        simp only [enclosed, Except.map, Except.ok.injEq, Option.some.injEq, Prod.mk.injEq] at read
        obtain ⟨nonempty, taken⟩ := read_enclosed_accepted enclosed
        rw [← read.1]
        exact run_of_take_while nonempty taken
  · rename_i inner
    cases enclosed : readEnclosed isNameCharacter '}' .noName inner with
    | error halt => simp [enclosed, Except.map] at read
    | ok result =>
        simp only [enclosed, Except.map, Except.ok.injEq, Option.some.injEq, Prod.mk.injEq] at read
        obtain ⟨nonempty, taken⟩ := read_enclosed_accepted enclosed
        rw [← read.1]
        refine ⟨nonempty, fun character member => ?_⟩
        rw [← taken] at member
        exact List.mem_takeWhile_imp member
  · split at read
    · cases read
    · rename_i nonempty
      cases read
      exact run_of_take_while nonempty rfl

theorem read_parts_proper {text rest : Text} {parts : List Part}
    (read : readParts text = .ok (parts, rest)) : ∀ part ∈ parts, part.Proper := by
  fun_induction readParts text generalizing parts rest with
  | case1 text halt step => cases read
  | case2 text step =>
      cases read
      simp
  | case3 text part left step ih =>
      cases more : readParts left with
      | error halt => simp [more, Except.map] at read
      | ok result =>
          simp only [more, Except.map, Except.ok.injEq, Prod.mk.injEq] at read
          obtain ⟨rfl, -⟩ := read
          intro other member
          rcases List.mem_cons.mp member with rfl | later
          · exact read_part_proper step
          · exact ih more other later

theorem of_parts_spelled {parts : List Part} (proper : ∀ part ∈ parts, part.Proper) :
    (Component.ofParts parts).Spelled := by
  unfold Component.ofParts
  split
  · simp [Component.Spelled]
  · rename_i text
    exact (proper (.literal text) (by simp)).plain
  · rename_i nonempty _
    exact ⟨nonempty, proper⟩

theorem read_component_spelled {text rest : Text} {component : Component}
    (read : readComponent text = .ok (component, rest)) : component.Spelled := by
  unfold readComponent at read
  split at read
  · split at read
    · cases read
      trivial
    · cases read
  · cases parts : readParts text with
    | error halt => simp [parts, Except.map] at read
    | ok result =>
        simp only [parts, Except.map, Except.ok.injEq, Prod.mk.injEq] at read
        rw [← read.1]
        exact of_parts_spelled (read_parts_proper parts)

theorem of_mem_read_components {text rest : Text} {components : List Component}
    (read : readComponents text = .ok (components, rest)) :
    ∀ component ∈ components, ∃ start left, readComponent start = .ok (component, left) := by
  fun_induction readComponents text generalizing components rest with
  | case1 text halt step => cases read
  | case2 text component step _ =>
      cases read
      simpa using ⟨_, _, step⟩
  | case3 text component next more step separates _ ih =>
      cases others : readComponents more with
      | error halt => simp [others, Except.map] at read
      | ok result =>
          simp only [others, Except.map, Except.ok.injEq, Prod.mk.injEq] at read
          obtain ⟨rfl, -⟩ := read
          intro other member
          rcases List.mem_cons.mp member with rfl | later
          · exact ⟨_, _, step⟩
          · exact ih others other later
  | case4 text component next more step stops _ =>
      cases read
      simpa using ⟨_, _, step⟩

theorem read_components_spelled {text rest : Text} {components : List Component}
    (read : readComponents text = .ok (components, rest)) :
    ∀ component ∈ components, component.Spelled := by
  intro component member
  obtain ⟨start, left, step⟩ := of_mem_read_components read component member
  exact read_component_spelled step

end Glob

theorem Component.merge_subset (components : List Component) :
    ∀ component ∈ Component.merge components, component ∈ components := by
  fun_induction Component.merge components with
  | case1 rest ih =>
      intro component member
      exact List.mem_cons_of_mem _ (ih component member)
  | case2 first rest _ ih =>
      intro component member
      rcases List.mem_cons.mp member with rfl | later
      · exact List.mem_cons_self
      · exact List.mem_cons_of_mem _ (ih component later)
  | case3 => simp

theorem Component.mem_tidy {component : Component} {components : List Component}
    (member : component ∈ Component.tidy components) :
    component ∈ components ∧ component.isIdle = false := by
  have kept := List.mem_filter.mp (Component.merge_subset _ component member)
  exact ⟨kept.1, by simpa using kept.2⟩

namespace Glob

theorem read_proper {text : Text} {glob : Glob} (spelled : read text = .ok glob) :
    ∀ component ∈ glob.components, component.Proper := by
  unfold read at spelled
  split at spelled
  · cases spelled
  · rename_i components rest parts
    split at spelled
    · cases spelled
    · rename_i noParent
      split at spelled
      · cases spelled
        intro component member
        obtain ⟨original, busy⟩ := Component.mem_tidy member
        refine ⟨read_components_spelled parts component original, busy, ?_⟩
        intro equal
        subst equal
        exact noParent (List.contains_iff_mem.mpr original)
      · cases spelled

theorem parse_proper {text : Text} {glob : Glob} (parsed : parse text = .ok glob) :
    glob.Proper := by
  unfold parse at parsed
  split at parsed
  · cases parsed
  · rename_i read spelled
    split at parsed
    · cases parsed
    · rename_i nonempty
      cases parsed
      exact ⟨fun none => nonempty (List.isEmpty_iff.mpr none), read_proper spelled⟩

end Glob

end PathGlob
