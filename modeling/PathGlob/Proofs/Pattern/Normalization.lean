import PathGlob.Proofs.Glob.Grammar
import PathGlob.Proofs.Pattern.Identity
import PathGlob.Proofs.Pattern.Matching

/-!
# Canonical texts are normalized paths

The canonical text of a glob comes from its components, the normalized form of a path from the
pieces of a text. On the text of a pattern the two agree: each component writes the piece that it
was read from, so what is printed are the segments of the text, and only neighbouring `**` make a
difference.
-/
namespace PathGlob

set_option autoImplicit false

namespace Glob

open PathGlob.Path

/-- A path with one `**` segment in the place of several neighbouring ones. -/
def collapsePath (path : Text) : Text := Text.joinWith '/' (collapse (path.split (· == '/')))

theorem map_print_of_spelled {pieces : List Text} {components : List Component}
    (spelled : List.Forall₂ Component.Spelling pieces components) :
    components.map Component.print = pieces := by
  have printed : List.Forall₂ (fun piece component => piece = component.print) pieces components :=
    spelled.imp fun _ _ one => (Component.written_iff_spelling.mpr one).print.symm
  rw [← List.forall₂_map_right_iff, List.forall₂_eq_eq_eq] at printed
  exact printed.symm

theorem print_of_parsed {text : Text} {glob : Glob} (parsed : parse text = .ok glob) :
    glob.print = (if startsAtRoot text then ['/'] else []) ++
      Text.joinWith '/' (collapse (segments text)) := by
  obtain ⟨-, rooted, spelled⟩ := parse_components parsed
  rw [print, rooted, map_print_of_spelled spelled]

theorem collapse_ne_nil {pieces : List Text} (nonempty : pieces ≠ []) : collapse pieces ≠ [] :=
  mt (List.destutter_eq_nil _).mp nonempty

/-- The empty piece in front of the first separator is no `**`. -/
theorem collapse_behind_root {pieces : List Text} (nonempty : pieces ≠ []) :
    collapse ([] :: pieces) = [] :: collapse pieces := by
  obtain ⟨piece, pieces, rfl⟩ := List.exists_cons_of_ne_nil nonempty
  have apart : ([] : Text) ≠ ['*', '*'] ∨ piece ≠ ['*', '*'] := .inl (List.cons_ne_nil _ _).symm
  rw [collapse, List.destutter_cons_cons, if_pos apart]
  rfl

theorem join_with_behind_root {pieces : List Text} (nonempty : pieces ≠ []) :
    Text.joinWith '/' ([] :: pieces) = '/' :: Text.joinWith '/' pieces := by
  obtain ⟨piece, pieces, rfl⟩ := List.exists_cons_of_ne_nil nonempty
  rw [join_with_cons, join_with_cons, slashed_cons, List.nil_append]

theorem collapse_normalized {text : Text} (named : segments text ≠ []) :
    collapsePath (normalize text) =
      (if startsAtRoot text then ['/'] else []) ++
        Text.joinWith '/' (collapse (segments text)) := by
  have free : ∀ name ∈ segments text, ∀ character ∈ name, (character == '/') = false := by
    intro name among character inside
    rw [beq_eq_false_iff_ne]
    rintro rfl
    exact (is_name_of_mem_segments among).slash_not_mem inside
  have cut : (Text.joinWith '/' (segments text)).split (· == '/') = segments text :=
    split_join_with rfl named free
  cases root : startsAtRoot text with
  | true =>
      have first : (absolute (segments text)).split (· == '/') = [] :: segments text := by
        rw [absolute, Text.split, cut]
        rfl
      rw [normalize_of_rooted root, collapsePath, first, collapse_behind_root named,
        join_with_behind_root (collapse_ne_nil named)]
      rfl
  | false =>
      rw [normalize_of_relative root, collapsePath, cut]
      rfl

theorem print_eq_collapsed {text : Text} {glob : Glob} (parsed : parse text = .ok glob) :
    glob.print = collapsePath (normalize text) := by
  have named : segments text ≠ [] := by
    intro none
    obtain ⟨-, -, spelled⟩ := parse_components parsed
    rw [none] at spelled
    exact (parse_proper parsed).nonempty (List.forall₂_nil_left_iff.mp spelled)
  rw [print_of_parsed parsed, collapse_normalized named]

end Glob

namespace Pattern

/--
The text of a pattern without `;` is the normalized path that was written, with one `**` segment for
several neighbouring ones, and the pattern is rooted as that path is.
-/
theorem text_is_normalized_path {engine : Engine} {text : Text} (single : ';' ∉ text)
    {mode : CaseMode} {pattern : Pattern}
    (compiled : compile engine text mode = .ok pattern) :
    pattern.text = Glob.collapsePath (Path.normalize text) ∧
      pattern.rooted = Path.isRooted (Path.normalize text) := by
  obtain ⟨glob, parsed, only⟩ := compile_single_eq_ok single compiled
  have branch : Branch.Parsed ⟨glob, mode⟩ :=
    (compile_proper compiled).parsed _ (only ▸ List.mem_singleton_self _)
  constructor
  · calc
      pattern.text = Branch.text ⟨glob, mode⟩ := by
        rw [Pattern.text, only]
        exact text_single _
      _ = glob.print := branch.text_eq
      _ = Glob.collapsePath (Path.normalize text) := Glob.print_eq_collapsed parsed
  · obtain ⟨-, rooted, -⟩ := Glob.parse_components parsed
    rw [Pattern.rooted, only, Path.is_rooted_normalize, ← rooted]
    exact Bool.and_true _

/-- The text `\.//**/./**\[ab]*.c/`, which has a `.` between two `**`. -/
theorem text_is_normalized_path_mixed :
    ∃ pattern,
      compile .lenient
        ['\\', '.', '/', '/', '*', '*', '/', '.', '/', '*', '*', '\\', '[', 'a', 'b', ']', '*',
        '.', 'c', '/'] .sensitive = .ok pattern ∧
      ';' ∉
        ['\\', '.', '/', '/', '*', '*', '/', '.', '/', '*', '*', '\\', '[', 'a', 'b', ']', '*', '.',
          'c', '/'] ∧
      pattern.text = ['/', '*', '*', '/', '[', 'a', 'b', ']', '*', '.', 'c'] ∧
      pattern.rooted = true := by
  have compiled :
      compile .lenient
        ['\\', '.', '/', '/', '*', '*', '/', '.', '/', '*', '*', '\\', '[', 'a', 'b', ']', '*', '.',
          'c', '/'] .sensitive =
      .ok ⟨[⟨⟨true, [.globstar, .compound [.oneOf ['a', 'b'], .star, .literal ['.', 'c']]]⟩,
        .sensitive⟩]⟩ := by
    decide +kernel
  have single :
      ';' ∉
        ['\\', '.', '/', '/', '*', '*', '/', '.', '/', '*', '*', '\\', '[', 'a', 'b', ']', '*', '.',
          'c', '/'] := by decide
  obtain ⟨sameText, sameRoot⟩ := text_is_normalized_path single compiled
  exact ⟨_, compiled, single, sameText.trans (by decide), sameRoot.trans (by decide)⟩

end Pattern

end PathGlob
