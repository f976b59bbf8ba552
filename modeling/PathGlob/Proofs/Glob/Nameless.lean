import PathGlob.Proofs.Glob.Canonical

/-!
# Globs without names

The plain glob of a glob has a `*` for each placeholder and one `*` for several neighbouring ones.
Its text can be written from left to right, where a `*` is left out if the text written so far ends
in one: in a canonical glob nothing but a `*` ends like that. So the text never has a `**` that was
not there.
-/
namespace PathGlob

set_option autoImplicit false

/-- What stands for a component in the plain glob: placeholders are `*`, no two `*` adjacent. -/
inductive Component.PlainOf : Component → Component → Prop where
  | literal (text : Text) : PlainOf (.literal text) (.literal text)
  | compound (parts : List Part) :
      PlainOf (.compound parts) (.compound ((parts.map Part.anonymous).destutter Part.NotBothStar))
  | globstar : PlainOf .globstar .globstar

/-- A part behind the text written so far, which a wildcard leaves as it is if it ends in `*`. -/
def Part.writePlain (written : Text) : Part → Text
  | .literal text => written ++ text
  | .oneOf characters => written ++ '[' :: characters ++ [']']
  | .star | .placeholder _ => if written.getLast? = some '*' then written else written ++ ['*']

def Component.writePlain (written : Text) : Component → Text
  | .literal text => written ++ text
  | .compound parts => parts.foldl Part.writePlain written
  | .globstar => written ++ ['*', '*']

def Glob.writePlain (glob : Glob) : Text :=
  match glob.components with
  | [] => if glob.rooted then ['/'] else []
  | first :: rest =>
    rest.foldl (fun written component => component.writePlain (written ++ ['/']))
      (first.writePlain (if glob.rooted then ['/'] else []))

namespace Part

theorem Proper.ends_with_star_iff {part : Part} (proper : part.Proper) (before : Text) :
    (before ++ part.print).getLast? = some '*' ↔ part = .star := by
  cases part with
  | star => simp [print]
  | literal run =>
      have other : run.getLast? ≠ some '*' := by
        intro ends
        exact absurd (proper.plain '*' (List.mem_of_getLast? ends)) (by decide)
      rw [print, List.getLast?_append_of_ne_nil before proper.nonempty]
      exact iff_of_false other Part.noConfusion
  | oneOf characters =>
      rw [print, ← List.append_assoc, List.getLast?_concat]
      exact iff_of_false (by decide) Part.noConfusion
  | placeholder name =>
      rw [print, ← List.append_assoc, List.getLast?_concat]
      exact iff_of_false (by decide) Part.noConfusion

theorem write_plain_eq (written : Text) (part : Part) :
    part.writePlain written =
      if written.getLast? = some '*' ∧ part.anonymous = .star then written
      else written ++ part.anonymous.print := by
  cases part <;> simp [writePlain, anonymous, print]

/--
Behind a part of the plain glob, the others are written without those that stand beside another `*`.
-/
theorem foldl_write_plain_behind {parts : List Part} (proper : ∀ part ∈ parts, part.Proper)
    {last : Part} (lastProper : last.Proper) (before : Text) :
    parts.foldl writePlain (before ++ last.print) =
      before ++ ((parts.map anonymous).destutter' NotBothStar last).flatMap print := by
  induction parts generalizing last before with
  | nil => simp
  | cons part parts ih =>
      obtain ⟨first, others⟩ := List.forall_mem_cons.mp proper
      have stars : (before ++ last.print).getLast? = some '*' ∧ part.anonymous = .star ↔
          ¬NotBothStar last part.anonymous := by
        rw [lastProper.ends_with_star_iff, NotBothStar, not_not]
      rw [List.foldl_cons, write_plain_eq, List.map_cons]
      by_cases apart : NotBothStar last part.anonymous
      · rw [if_neg fun both => stars.mp both apart, ih others first.anonymous,
          List.destutter'_cons_pos _ apart, List.flatMap_cons, List.append_assoc]
      · rw [if_pos (stars.mpr apart), ih others lastProper, List.destutter'_cons_neg _ apart]

end Part

namespace Component

theorem plain_of_anonymous (component : Component) : PlainOf component component.anonymous := by
  cases component with
  | literal text => exact .literal text
  | compound parts =>
      rw [anonymous, Part.merge_eq_destutter_stars]
      exact .compound parts
  | globstar => exact .globstar

theorem Proper.write_plain {component : Component} (proper : component.Proper) {written : Text}
    (starts : written.getLast? ≠ some '*') :
    component.writePlain written = written ++ component.anonymous.print := by
  cases component with
  | literal text => rfl
  | globstar => rfl
  | compound parts =>
      obtain ⟨part, parts, rfl⟩ := List.exists_cons_of_ne_nil proper.spelled.1
      obtain ⟨first, others⟩ := List.forall_mem_cons.mp proper.spelled.2
      rw [writePlain, List.foldl_cons, Part.write_plain_eq, if_neg fun both => starts both.1,
        Part.foldl_write_plain_behind others first.anonymous, Component.anonymous,
        Part.merge_eq_destutter_stars]
      rfl

end Component

namespace Glob

open PathGlob.Path

theorem foldl_write_plain {components : List Component}
    (proper : ∀ component ∈ components, component.Proper) (written : Text) :
    components.foldl (fun written component => component.writePlain (written ++ ['/'])) written =
      written ++ slashed (components.map fun component => component.anonymous.print) := by
  induction components generalizing written with
  | nil => simp
  | cons component components ih =>
      obtain ⟨first, others⟩ := List.forall_mem_cons.mp proper
      have starts : (written ++ ['/']).getLast? ≠ some '*' := by simp
      rw [List.foldl_cons, first.write_plain starts, ih others, List.map_cons, slashed_cons]
      simp only [List.append_assoc, List.cons_append, List.nil_append]

/-- Written from left to right, a glob comes to its canonical text. -/
theorem Proper.write_plain_eq_text {glob : Glob} (proper : glob.Proper) :
    glob.writePlain = glob.text := by
  obtain ⟨rooted, components⟩ := glob
  obtain ⟨component, components, rfl⟩ := List.exists_cons_of_ne_nil proper.nonempty
  obtain ⟨first, others⟩ := List.forall_mem_cons.mp proper.components
  have starts :
      (if rooted = true then ['/'] else []).getLast? ≠ some '*' := by cases rooted <;> simp
  rw [writePlain, text, anonymous]
  dsimp only
  rw [foldl_write_plain others, first.write_plain starts, List.map_cons, print_cons, List.map_map,
    List.append_assoc]
  rfl

theorem plain_of_anonymous (glob : Glob) :
    List.Forall₂ Component.PlainOf glob.components glob.anonymous.components := by
  rw [anonymous, List.forall₂_map_right_iff, List.forall₂_same]
  exact fun component _ => component.plain_of_anonymous

end Glob

end PathGlob
