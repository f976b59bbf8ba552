import PathGlob.Proofs.Glob.Canonical
import PathGlob.Proofs.Glob.Pieces

/-!
# The grammar of globs

Says which texts are globs, and which globs they are, without a reader: a text is cut at its
separators, every piece is `**` or a segment, and a segment is a row of plain characters, single
stars, lists and placeholders. Reading is shown to accept exactly these texts and to make of each
piece the component that it spells, with literals as long as they can be.
-/
namespace PathGlob

set_option autoImplicit false

/-- What can stand between two separators, apart from `**`. -/
inductive Glob.Segment : Text → Prop where
  | nothing : Segment []
  | plain {character : Char} {rest : Text} (ordinary : isSpecial character = false)
      (more : Segment rest) : Segment (character :: rest)
  | star {rest : Text} (single : rest.head? ≠ some '*') (more : Segment rest) :
      Segment ('*' :: rest)
  | oneOf {characters rest : Text} (listed : IsRun characters) (more : Segment rest) :
      Segment ('[' :: (characters ++ ']' :: rest))
  | placeholder {name rest : Text} (nonempty : name ≠ [])
      (named : ∀ character ∈ name, Glob.isNameCharacter character = true) (more : Segment rest) :
      Segment ('{' :: (name ++ '}' :: rest))

/-- The parts that a segment is made of. A literal goes on up to a character that is special. -/
inductive Part.Spelling : Text → List Part → Prop where
  | nothing : Spelling [] []
  | literal {run rest : Text} {parts : List Part} (isRun : IsRun run)
      (whole : ∀ next ∈ rest.head?, isSpecial next = true) (more : Spelling rest parts) :
      Spelling (run ++ rest) (.literal run :: parts)
  | star {rest : Text} {parts : List Part} (single : rest.head? ≠ some '*')
      (more : Spelling rest parts) : Spelling ('*' :: rest) (.star :: parts)
  | oneOf {characters rest : Text} {parts : List Part} (listed : IsRun characters)
      (more : Spelling rest parts) :
      Spelling ('[' :: (characters ++ ']' :: rest)) (.oneOf characters :: parts)
  | placeholder {name rest : Text} {parts : List Part} (nonempty : name ≠ [])
      (named : ∀ character ∈ name, Glob.isNameCharacter character = true)
      (more : Spelling rest parts) :
      Spelling ('{' :: (name ++ '}' :: rest)) (.placeholder name :: parts)

inductive Component.Spelling : Text → Component → Prop where
  | globstar : Spelling ['*', '*'] .globstar
  | segment {piece : Text} {parts : List Part} (spelled : Part.Spelling piece parts) :
      Spelling piece (.ofParts parts)

namespace Glob

open PathGlob.Path

def Legal (text : Text) : Prop :=
  ∀ piece ∈ text.split isSeparator, piece = ['*', '*'] ∨ Segment piece

/-- What makes a text a glob: legal pieces, none of them `..`, and one that names something. -/
structure Grammatical (text : Text) : Prop where
  legal : Legal text
  noParent : ['.', '.'] ∉ text.split isSeparator
  named : ∃ piece ∈ text.split isSeparator, piece ≠ [] ∧ piece ≠ ['.']

def collapse (pieces : List Text) : List Text :=
  pieces.destutter fun left right => left ≠ ['*', '*'] ∨ right ≠ ['*', '*']

end Glob

namespace Part

theorem Spelling.read {text : Text} {parts : List Part} (spelled : Spelling text parts) :
    Glob.readParts text = .ok (parts, []) := by
  have next : ∀ {part : Part} {rest : Text} {parts : List Part}, part.Proper → part.EndsAt rest →
      Glob.readParts rest = .ok (parts, []) →
        Glob.readParts (part.print ++ rest) = .ok (part :: parts, []) := by
    intro part rest parts proper ends read
    rw [Glob.read_parts_of_some (Glob.read_part_eq_ok_iff.mpr ⟨rfl, proper, ends⟩), read]
    rfl
  induction spelled with
  | nothing => exact Glob.read_parts_of_none rfl
  | @literal run rest parts isRun whole _ ih => exact @next (.literal run) _ _ isRun whole ih
  | @star rest parts single _ ih => exact @next .star _ _ trivial single ih
  | @oneOf characters rest parts listed _ ih =>
      have read := @next (.oneOf characters) _ _ listed trivial ih
      simpa [print] using read
  | @placeholder name rest parts nonempty named _ ih =>
      have read := @next (.placeholder name) _ _ ⟨nonempty, named⟩ trivial ih
      simpa [print] using read

theorem spelling_of_read {text : Text} {parts : List Part}
    (read : Glob.readParts text = .ok (parts, [])) : Spelling text parts := by
  fun_induction Glob.readParts text generalizing parts with
  | case1 text halt step => cases read
  | case2 text step =>
      cases read
      exact .nothing
  | case3 text part left step ih =>
      cases more : Glob.readParts left with
      | error halt => simp [more, Except.map] at read
      | ok result =>
          simp only [more, Except.map, Except.ok.injEq, Prod.mk.injEq] at read
          obtain ⟨rfl, ended⟩ := read
          have others : Spelling left result.1 := ih (by rw [more, ← ended])
          obtain ⟨rfl, proper, ends⟩ := Glob.read_part_eq_ok_iff.mp step
          cases part with
          | star => exact .star ends others
          | literal run => exact .literal proper ends others
          | oneOf characters => simpa [print] using Spelling.oneOf proper others
          | placeholder name => simpa [print] using Spelling.placeholder proper.1 proper.2 others

/-- A plain character lengthens the literal behind it or is one of its own. -/
theorem exists_spelling_plain {character : Char} {rest : Text} {parts : List Part}
    (ordinary : isSpecial character = false) (spelled : Spelling rest parts) :
    ∃ parts, Spelling (character :: rest) parts := by
  have alone : IsRun [character] := ⟨List.cons_ne_nil _ _, by simpa using ordinary⟩
  have started : ∀ {special : Char} {left : Text} {parts : List Part}, isSpecial special = true →
      Spelling (special :: left) parts → ∃ parts, Spelling (character :: special :: left) parts :=
    fun special spelled => ⟨_, .literal alone (by simpa using special) spelled⟩
  cases spelled with
  | nothing => exact ⟨_, .literal alone (by simp) .nothing⟩
  | literal isRun whole more =>
      have longer : IsRun (character :: _) :=
        ⟨List.cons_ne_nil _ _, List.forall_mem_cons.mpr ⟨ordinary, isRun.plain⟩⟩
      exact ⟨_, .literal longer whole more⟩
  | star single more => exact started (by decide) (.star single more)
  | oneOf listed more => exact started (by decide) (.oneOf listed more)
  | placeholder nonempty named more => exact started (by decide) (.placeholder nonempty named more)

theorem segment_iff_exists_spelling (text : Text) :
    Glob.Segment text ↔ ∃ parts, Spelling text parts := by
  constructor
  · intro segment
    induction segment with
    | nothing => exact ⟨[], .nothing⟩
    | plain ordinary _ ih => exact ih.elim fun _ spelled => exists_spelling_plain ordinary spelled
    | star single _ ih => exact ih.elim fun _ spelled => ⟨_, .star single spelled⟩
    | oneOf listed _ ih => exact ih.elim fun _ spelled => ⟨_, .oneOf listed spelled⟩
    | placeholder nonempty named _ ih =>
        exact ih.elim fun _ spelled => ⟨_, .placeholder nonempty named spelled⟩
  · intro spelled
    obtain ⟨parts, spelled⟩ := spelled
    induction spelled with
    | nothing => exact .nothing
    | @literal run rest parts isRun whole _ ih =>
        have plain := isRun.plain
        clear whole isRun
        induction run with
        | nil => exact ih
        | cons first run further =>
            obtain ⟨ordinary, others⟩ := List.forall_mem_cons.mp plain
            exact .plain ordinary (further others)
    | star single _ ih => exact .star single ih
    | oneOf listed _ ih => exact .oneOf listed ih
    | placeholder nonempty named _ ih => exact .placeholder nonempty named ih

end Part

namespace Component

open PathGlob.Path

theorem written_iff_spelling {piece : Text} {component : Component} :
    WrittenAs piece component ↔ Spelling piece component := by
  constructor
  · intro written
    have read := read_of_written written
    unfold Glob.readComponent at read
    split at read
    · split at read
      · cases read
        exact .globstar
      · cases read
    · cases parts : Glob.readParts piece with
      | error halt => simp [parts, Except.map] at read
      | ok result =>
          simp only [parts, Except.map, Except.ok.injEq, Prod.mk.injEq] at read
          obtain ⟨rfl, ended⟩ := read
          exact .segment (Part.spelling_of_read (by rw [parts, ← ended]))
  · intro spelled
    apply written_of_read
    cases spelled with
    | globstar => rfl
    | segment spelled => exact Glob.read_component_of_parts spelled.read

theorem exists_written_iff (piece : Text) :
    (∃ component, WrittenAs piece component) ↔ piece = ['*', '*'] ∨ Glob.Segment piece := by
  simp only [written_iff_spelling, Part.segment_iff_exists_spelling]
  constructor
  · intro spelled
    obtain ⟨component, spelled⟩ := spelled
    cases spelled with
    | globstar => exact .inl rfl
    | segment spelled => exact .inr ⟨_, spelled⟩
  · intro either
    rcases either with rfl | ⟨parts, spelled⟩
    · exact ⟨_, .globstar⟩
    · exact ⟨_, .segment spelled⟩

theorem WrittenAs.is_idle_iff {piece : Text} {component : Component}
    (written : WrittenAs piece component) :
    component.isIdle = true ↔ piece = [] ∨ piece = ['.'] := by
  rw [isIdle, Bool.or_eq_true, beq_iff_eq, beq_iff_eq, written.eq_literal_iff (by simp),
    written.eq_literal_iff (by simp [isSpecial])]

end Component

namespace Glob

open PathGlob.Path

theorem busy_written {pieces : List Text} {components : List Component}
    (written : List.Forall₂ Component.WrittenAs pieces components) :
    List.Forall₂ Component.WrittenAs
      (pieces.filter fun piece => piece ≠ [] && piece ≠ ['.']) (components.filter (!·.isIdle)) := by
  apply List.rel_filter _ written
  intro piece component first
  have busy := not_congr first.is_idle_iff
  rw [Bool.not_eq_true, not_or] at busy
  simp [busy]

/-- The tidied components of all pieces are those of the pieces that name something. -/
theorem tidy_written {pieces : List Text} {components : List Component}
    (written : List.Forall₂ Component.WrittenAs pieces components) :
    List.Forall₂ Component.WrittenAs
      (collapse (pieces.filter fun piece => piece ≠ [] && piece ≠ ['.']))
        (Component.tidy components) := by
  rw [Component.tidy, Component.merge_eq_destutter]
  apply destutter_paired _ (busy_written written)
  intro piece component first other next second
  exact or_congr (not_congr first.eq_globstar_iff.symm) (not_congr second.eq_globstar_iff.symm)

theorem split_eq_body (text : Text) :
    text.split isSeparator =
      (if startsAtRoot text then [[]] else []) ++ (body text).split isSeparator := by
  cases text with
  | nil => rfl
  | cons first rest =>
      have root : startsAtRoot (first :: rest) = isSeparator first := rfl
      rw [body, root]
      cases separates : isSeparator first with
      | true => exact split_append separates [] rest
      | false => rfl

theorem mem_split_body_iff {text piece : Text} (nonempty : piece ≠ []) :
    piece ∈ text.split isSeparator ↔ piece ∈ (body text).split isSeparator := by
  rw [split_eq_body text]
  split <;> simp [nonempty]

theorem legal_body_iff (text : Text) : Legal text ↔ Legal (body text) := by
  rw [Legal, Legal, split_eq_body text]
  split
  · exact List.forall_mem_cons.trans (and_iff_right (.inr .nothing))
  · rfl

theorem segments_body (text : Text) : segments (body text) = segments text := by
  rw [segments, segments, split_eq_body text]
  split <;> simp

theorem all_legal_iff_written (pieces : List Text) :
    (∀ piece ∈ pieces, piece = ['*', '*'] ∨ Segment piece) ↔
      ∃ components, List.Forall₂ Component.WrittenAs pieces components := by
  induction pieces with
  | nil => simp
  | cons piece pieces ih =>
      rw [List.forall_mem_cons, ih, ← Component.exists_written_iff]
      simp [List.forall₂_cons_left_iff]

theorem legal_iff_written (text : Text) :
    Legal text ↔
    ∃ components, List.Forall₂ Component.WrittenAs (text.split isSeparator) components :=
  all_legal_iff_written _

theorem parent_written_iff {pieces : List Text} {components : List Component}
    (written : List.Forall₂ Component.WrittenAs pieces components) :
    ['.', '.'] ∈ pieces ↔ .literal ['.', '.'] ∈ components :=
  mem_paired_iff written fun first => (first.eq_literal_iff (by simp [isSpecial])).symm

theorem exists_spells_iff (text : Text) :
    (∃ components, Spells text components) ↔ Legal text ∧ ['.', '.'] ∉ text.split isSeparator := by
  rw [legal_body_iff, legal_iff_written, mem_split_body_iff (List.cons_ne_nil _ _)]
  constructor
  · intro spelled
    obtain ⟨components, written, noParent⟩ := spelled
    exact ⟨⟨components, written⟩, mt (parent_written_iff written).mp noParent⟩
  · intro both
    obtain ⟨⟨components, written⟩, noParent⟩ := both
    exact ⟨components, written, mt (parent_written_iff written).mpr noParent⟩

theorem Spells.tidied {text : Text} {components : List Component}
    (spells : Spells text components) :
    List.Forall₂ Component.Spelling (collapse (segments text)) (Component.tidy components) := by
  rw [← segments_body]
  exact (tidy_written spells.pieces).imp fun _ _ => Component.written_iff_spelling.mp

theorem tidy_ne_nil_iff {text : Text} {components : List Component}
    (spells : Spells text components) :
    Component.tidy components ≠ [] ↔
    ∃ piece ∈ text.split isSeparator, piece ≠ [] ∧ piece ≠ ['.'] := by
  have tidied := spells.tidied
  have named : collapse (segments text) ≠ [] ↔ segments text ≠ [] :=
    not_congr (List.destutter_eq_nil _)
  have same : Component.tidy components = [] ↔ collapse (segments text) = [] := by
    constructor
    · intro none
      rwa [none, List.forall₂_nil_right_iff] at tidied
    · intro none
      rwa [none, List.forall₂_nil_left_iff] at tidied
  rw [Ne, same, ← Ne, named, segments, ← List.length_pos_iff, List.length_filter_pos_iff]
  simp

theorem parse_components {text : Text} {glob : Glob} (parsed : parse text = .ok glob) :
    Grammatical text ∧ glob.rooted = startsAtRoot text ∧
      List.Forall₂ Component.Spelling (collapse (segments text)) glob.components := by
  obtain ⟨components, spells, nonempty, rfl⟩ := parse_eq_ok_iff.mp parsed
  obtain ⟨legal, noParent⟩ := (exists_spells_iff text).mp ⟨components, spells⟩
  exact ⟨⟨legal, noParent, (tidy_ne_nil_iff spells).mp nonempty⟩, rfl, spells.tidied⟩

theorem Grammatical.parse {text : Text} (grammatical : Grammatical text) :
    ∃ glob, Glob.parse text = .ok glob := by
  obtain ⟨components, spells⟩ :=
    (exists_spells_iff text).mpr ⟨grammatical.legal, grammatical.noParent⟩
  exact ⟨_,
    parse_eq_ok_iff.mpr ⟨components, spells, (tidy_ne_nil_iff spells).mpr grammatical.named, rfl⟩⟩

theorem spelling_unique : Relator.RightUnique Component.Spelling := by
  intro piece component other spelled again
  exact (Component.written_iff_spelling.mpr spelled).unique
    (Component.written_iff_spelling.mpr again)

/--
A text spells a glob exactly when it is grammatical, and the glob is then determined: it is rooted
if the text starts with a separator, and its components are those that the pieces stand for, without
empty and `.` pieces and with one `**` for several neighbouring ones.
-/
theorem parse_accepts_grammar (text : Text) :
    ((∃ glob, parse text = .ok glob) ↔ Grammatical text) ∧
      ∀ glob, parse text = .ok glob ↔ Grammatical text ∧ glob.rooted = startsAtRoot text ∧
        List.Forall₂ Component.Spelling (collapse (segments text)) glob.components := by
  refine ⟨⟨fun parsed => ?_, Grammatical.parse⟩, fun glob => ⟨parse_components, fun spelled => ?_⟩⟩
  · obtain ⟨glob, parsed⟩ := parsed
    exact (parse_components parsed).1
  · obtain ⟨grammatical, rooted, components⟩ := spelled
    obtain ⟨other, parsed⟩ := grammatical.parse
    obtain ⟨-, otherRooted, otherComponents⟩ := parse_components parsed
    have sameComponents : other.components = glob.components :=
      List.right_unique_forall₂' spelling_unique otherComponents components
    have same : other = glob := Glob.mk.injEq .. ▸ ⟨otherRooted.trans rooted.symm, sameComponents⟩
    rw [← same]
    exact parsed

end Glob

end PathGlob
