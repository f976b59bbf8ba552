import PathGlob.Proofs.Glob.Grammar
import PathGlob.Proofs.Path.Joining

/-!
# Globs put together

The glob that a text spells can be told from its segments alone: each writes a component, whatever
stands beside it. So components can be read in two parts and put together behind one another. Only
at the seam two `**` become one, and it makes no difference when that is done. What stands at the
end is still there afterwards, and takes the end of whatever the whole takes.
-/
namespace PathGlob

set_option autoImplicit false

structure Glob.Write (segments : List Text) (components : List Component) : Prop where
  pieces : List.Forall₂ Component.WrittenAs segments components
  noParent : .literal ['.', '.'] ∉ components

namespace Component

theorem head_merge (components : List Component) : (merge components).head? = components.head? := by
  fun_induction merge components with
  | case1 rest ih => exact ih
  | case2 => rfl
  | case3 => rfl

theorem merge_merge (components : List Component) :
    merge (merge components) = merge components := by
  rw [merge_eq_destutter, merge_eq_destutter, List.destutter_idem]

theorem merge_of_apart {components : List Component} (apart : components.IsChain Apart) :
    merge components = components := by
  rw [merge_eq_destutter, List.destutter_of_isChain _ _ apart]

theorem merge_eq_nil_iff (components : List Component) :
    merge components = [] ↔ components = [] := by
  rw [← List.head?_eq_none_iff, head_merge, List.head?_eq_none_iff]

theorem mem_merge_iff (components : List Component) (wanted : Component) :
    wanted ∈ merge components ↔ wanted ∈ components := by
  fun_induction merge components with
  | case1 rest ih =>
      rw [ih]
      simp only [List.mem_cons, or_self_left]
  | case2 component rest _ ih => rw [List.mem_cons, List.mem_cons, ih]
  | case3 => rfl

/-- A component stays in front of merged ones, unless both it and the first of them are `**`. -/
theorem merge_cons (first : Component) (rest : List Component) :
    merge (first :: rest) =
      if first = .globstar ∧ rest.head? = some .globstar then merge rest
      else first :: merge rest := by
  split
  · rename_i together
    obtain ⟨rfl, doubled⟩ := together
    obtain ⟨others, rfl⟩ := List.head?_eq_some_iff.mp doubled
    rw [merge]
  · rename_i apart
    rw [merge]
    rintro others rfl rfl
    exact apart ⟨rfl, rfl⟩

theorem merge_cons_merge (first : Component) (rest : List Component) :
    merge (first :: merge rest) = merge (first :: rest) := by
  rw [merge_cons, merge_cons, head_merge, merge_merge]

theorem merge_append_merge (front back : List Component) :
    merge (front ++ merge back) = merge (front ++ back) := by
  induction front with
  | nil => exact merge_merge back
  | cons first front ih =>
      rw [List.cons_append, List.cons_append, ← merge_cons_merge, ih, merge_cons_merge]

/-- Components with nothing to merge are still at the end when others come before them. -/
theorem suffix_merge_append {back : List Component} (apart : back.IsChain Apart)
    (front : List Component) :
    back <:+ merge (front ++ back) := by
  induction front with
  | nil => simpa only [List.nil_append, merge_of_apart apart] using List.suffix_refl back
  | cons first front ih =>
      rw [List.cons_append, merge_cons]
      split
      · exact ih
      · exact ih.trans (List.suffix_cons first _)

theorem Proper.is_name_print {component : Component} (proper : component.Proper)
    (legible : component.Legible) : Path.IsName component.print := by
  have written : WrittenAs component.print component := ⟨rfl, proper.spelled, legible⟩
  have busy := proper.busy
  rw [← Bool.not_eq_true, written.is_idle_iff, not_or] at busy
  exact ⟨busy.1, busy.2, proper.spelled.separator_free⟩

end Component

namespace Glob

open PathGlob.Path

theorem Canonical.segments_print {glob : Glob} (canonical : glob.Canonical) :
    segments glob.print = glob.components.map Component.print := by
  have named : ∀ name ∈ glob.components.map Component.print, IsName name := by
    intro name member
    rcases List.mem_map.mp member with ⟨component, among, rfl⟩
    exact (canonical.proper.components component among).is_name_print
      (canonical.legible component among)
  rw [print]
  split
  · rw [List.singleton_append, segments_cons_slash, segments_join_with named]
  · rw [List.nil_append, segments_join_with named]

theorem Write.append {left right : List Text} {front back : List Component}
    (first : Write left front) (second : Write right back) :
    Write (left ++ right) (front ++ back) where
  pieces := List.rel_append first.pieces second.pieces
  noParent := by
    rw [List.mem_append, not_or]
    exact ⟨first.noParent, second.noParent⟩

theorem Write.split {left right : List Text} {components : List Component}
    (whole : Write (left ++ right) components) :
    ∃ front back, components = front ++ back ∧ Write left front ∧ Write right back := by
  have flipped := whole.pieces.flip
  have front := (List.forall₂_take_append components left right flipped).flip
  have back := (List.forall₂_drop_append components left right flipped).flip
  refine ⟨_, _, (List.take_append_drop left.length components).symm, ⟨front, ?_⟩, ⟨back, ?_⟩⟩
  · exact fun parent => whole.noParent (List.mem_of_mem_take parent)
  · exact fun parent => whole.noParent (List.mem_of_mem_drop parent)

theorem Write.unique {segments : List Text} {components others : List Component}
    (write : Write segments components) (again : Write segments others) : components = others :=
  List.right_unique_forall₂' @Component.WrittenAs.unique write.pieces again.pieces

/-- The segments of what a canonical glob prints write its components. -/
theorem Canonical.write_print {glob : Glob} (canonical : glob.Canonical) :
    Write (segments glob.print) glob.components where
  pieces := by
    rw [canonical.segments_print, List.forall₂_map_left_iff, List.forall₂_same]
    exact fun component member =>
      ⟨rfl, (canonical.proper.components component member).spelled,
        canonical.legible component member⟩
  noParent := fun parent => (canonical.proper.components _ parent).notParent rfl

theorem write_busy {text : Text} {components : List Component} (spells : Spells text components) :
    Write (segments text) (components.filter (!·.isIdle)) where
  pieces := by
    rw [← segments_body]
    exact busy_written spells.pieces
  noParent := fun parent => spells.noParent (List.mem_filter.mp parent).1

/--
Pieces that name nothing may stand in every text, so only the segments of a text can be at fault.
-/
theorem legal_iff_segments (text : Text) :
    Legal text ↔ ∀ piece ∈ segments text, piece = ['*', '*'] ∨ Segment piece := by
  constructor
  · intro legal piece member
    exact legal piece (List.mem_filter.mp member).1
  · intro legal piece member
    by_cases empty : piece = []
    · exact .inr (empty ▸ .nothing)
    · by_cases dot : piece = ['.']
      · exact .inr (dot ▸ .plain rfl .nothing)
      · exact legal piece (List.mem_filter.mpr ⟨member, by simp [empty, dot]⟩)

theorem parent_mem_segments_iff (text : Text) :
    ['.', '.'] ∈ segments text ↔ ['.', '.'] ∈ text.split isSeparator := by
  simp [segments]

/-- A text whose segments write components spells them, and besides only what stands for nothing. -/
theorem exists_spells_of_write {text : Text} {busy : List Component}
    (write : Write (segments text) busy) :
    ∃ components, Spells text components ∧ components.filter (!·.isIdle) = busy := by
  have legal := (legal_iff_segments text).mpr ((all_legal_iff_written _).mpr ⟨busy, write.pieces⟩)
  have noParent := mt (parent_mem_segments_iff text).mpr
    (mt (parent_written_iff write.pieces).mp write.noParent)
  obtain ⟨components, spells⟩ := (exists_spells_iff text).mpr ⟨legal, noParent⟩
  exact ⟨components, spells, (write_busy spells).unique write⟩

/--
A text spells a glob exactly when its segments write components, at least one. The glob is then
rooted as the text is, and has these components with neighbouring `**` made one.
-/
theorem parse_eq_ok_iff_write {text : Text} {glob : Glob} :
    parse text = .ok glob ↔ ∃ components, Write (segments text) components ∧ components ≠ [] ∧
      glob = ⟨startsAtRoot text, Component.merge components⟩ := by
  rw [parse_eq_ok_iff]
  constructor
  · intro spelled
    obtain ⟨components, spells, nonempty, rfl⟩ := spelled
    exact ⟨_, write_busy spells, mt (Component.merge_eq_nil_iff _).mpr nonempty, rfl⟩
  · intro written
    obtain ⟨busy, write, nonempty, rfl⟩ := written
    obtain ⟨components, spells, rfl⟩ := exists_spells_of_write write
    exact ⟨components, spells, mt (Component.merge_eq_nil_iff _).mp nonempty, rfl⟩

end Glob

end PathGlob
