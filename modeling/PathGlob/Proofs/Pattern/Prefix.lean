import PathGlob.Proofs.Glob.Seams
import PathGlob.Proofs.Pattern.Identity

/-!
# Patterns below a directory

Putting a relative pattern below a directory writes the directory in front of each canonical text
and reads the result again. What is read is told from the segments of the directory: they have to
write components, which then stand in front of those of the branch. Where every one of them is plain
these are literals, and different branches stay different.
-/
namespace PathGlob

set_option autoImplicit false

open PathGlob.Path

/-- A name that a glob can spell: nothing in it is special, and it is not `..`. -/
structure IsPlain (name : Text) : Prop where
  named : IsName name
  plain : ∀ character ∈ name, isSpecial character = false
  notParent : name ≠ ['.', '.']

theorem is_plain_of_segment {path name : Text} (among : name ∈ segments path)
    (notParent : name ≠ ['.', '.'])
    (ordinary : ∀ character ∈ name, character ∉ ['[', ']', '{', '}', '*', ';']) : IsPlain name where
  named := is_name_of_mem_segments among
  plain := by
    intro character member
    have whole := (is_name_of_mem_segments among).whole character member
    have usual := ordinary character member
    rw [isSeparator, Bool.or_eq_false_iff, beq_eq_false_iff_ne, beq_eq_false_iff_ne] at whole
    simp only [List.mem_cons, List.not_mem_nil, or_false, not_or] at usual
    simp [isSpecial, whole, usual]
  notParent := notParent

def Branch.below (names : List Text) (branch : Branch) : Branch :=
  ⟨⟨true, names.map .literal ++ branch.glob.components⟩, branch.mode⟩

variable {names : List Text}

theorem IsPlain.proper {name : Text} (plain : IsPlain name) : (Component.literal name).Proper where
  spelled := plain.plain
  busy := by simp [Component.isIdle, plain.named.nonempty, plain.named.notDot]
  notParent := by simpa using plain.notParent

theorem write_literals (plain : ∀ name ∈ names, IsPlain name) :
    Glob.Write names (names.map .literal) where
  pieces := by
    rw [List.forall₂_map_right_iff, List.forall₂_same]
    exact fun name member => ⟨rfl, (plain name member).proper.spelled, trivial⟩
  noParent := by
    intro parent
    obtain ⟨name, member, same⟩ := List.mem_map.mp parent
    exact (plain name member).notParent (Component.literal.inj same)

theorem literals_apart (names : List Text) {components : List Component}
    (apart : components.IsChain Component.Apart) :
    (names.map Component.literal ++ components).IsChain Component.Apart := by
  induction names with
  | nil => exact apart
  | cons name names ih => exact List.isChain_cons.mpr ⟨fun _ _ => .inl Component.noConfusion, ih⟩

def Component.Plain (component : Component) : Prop := ∀ part ∈ component.parts, part.name? = none

namespace Branch

def behind (rooted : Bool) (front : List Component) (branch : Branch) : Branch :=
  ⟨⟨rooted, Component.merge (front ++ branch.glob.components)⟩, branch.mode⟩

variable {engine : Engine} {branch result : Branch} {base : Text}

theorem behind_plain_iff (plain : branch.glob.placeholders = []) (rooted : Bool)
    (front : List Component) :
    (branch.behind rooted front).glob.placeholders = [] ↔ ∀ component ∈ front, component.Plain := by
  rw [Glob.placeholders_eq_nil_iff] at plain ⊢
  simp only [behind, Component.mem_merge_iff, List.mem_append]
  constructor
  · exact fun all component member => all component (.inl member)
  · intro all component member
    exact member.elim (all component) (plain component)

/-- Below a directory a relative branch is behind components that the directory's segments write. -/
theorem Parsed.under_eq_ok_iff (parsed : branch.Parsed) (relative : branch.rooted = false) :
    branch.under engine (normalize base) = .ok result ↔
      (∃ front, Glob.Write (segments base) front ∧ (∀ component ∈ front, component.Plain) ∧
        result = branch.behind (startsAtRoot base) front) ∧ engine.Takes result := by
  have own : Glob.Write (segments branch.text) branch.glob.components := by
    rw [parsed.text_eq]
    exact parsed.canonical.write_print
  have starts : startsAtRoot branch.text = false := by
    rw [parsed.text_eq, (Glob.starts_at_root_print parsed.proper).1]
    exact relative
  rw [under, if_neg (by simp [relative]), compile_eq_ok_iff, parse_eq_ok_iff,
    Glob.parse_eq_ok_iff_write, segments_join, segments_normalize,
    starts_at_root_join_normalize base starts, ← and_assoc]
  refine and_congr_left fun _ => ?_
  constructor
  · intro compiled
    obtain ⟨mode, ⟨components, write, -, glob⟩, plain⟩ := compiled
    obtain ⟨front, back, rfl, first, second⟩ := write.split
    obtain rfl := second.unique own
    have same : result = branch.behind (startsAtRoot base) front := by
      rw [behind, ← glob, ← mode]
    exact ⟨front, first, (behind_plain_iff parsed.plain _ _).mp (same ▸ plain), same⟩
  · intro written
    obtain ⟨front, first, plain, rfl⟩ := written
    have nonempty : front ++ branch.glob.components ≠ [] := by simp [parsed.proper.nonempty]
    exact ⟨rfl, ⟨_, first.append own, nonempty, rfl⟩, (behind_plain_iff parsed.plain _ _).mpr plain⟩

theorem Parsed.below_eq_behind (parsed : branch.Parsed) (names : List Text) :
    branch.below names = branch.behind true (names.map .literal) := by
  rw [below, behind, Component.merge_of_apart (literals_apart names parsed.canonical.apart)]

/-- Below a directory of plain names a relative branch is behind these as literals. -/
theorem Parsed.under_eq_ok_iff_below (parsed : branch.Parsed) (relative : branch.rooted = false)
    (plain : ∀ name ∈ names, IsPlain name) :
    branch.under engine (absolute names) = .ok result ↔
      result = branch.below names ∧ engine.Takes (branch.below names) := by
  have named : ∀ name ∈ names, IsName name := fun name member => (plain name member).named
  have reportsNothing : ∀ component ∈ names.map Component.literal, component.Plain := by
    simp [Component.Plain, Component.parts]
  rw [← normalize_absolute named, parsed.under_eq_ok_iff relative, segments_absolute named]
  have same : branch.behind (startsAtRoot (absolute names)) (names.map .literal) =
      branch.below names := (parsed.below_eq_behind names).symm
  constructor
  · intro written
    obtain ⟨⟨front, write, -, rfl⟩, taken⟩ := written
    obtain rfl := write.unique (write_literals plain)
    rw [same] at taken ⊢
    exact ⟨rfl, taken⟩
  · intro both
    obtain ⟨rfl, taken⟩ := both
    exact ⟨⟨names.map .literal, write_literals plain, reportsNothing, same.symm⟩, taken⟩

theorem Parsed.below_parsed (parsed : branch.Parsed) (relative : branch.rooted = false)
    (plain : ∀ name ∈ names, IsPlain name) : (branch.below names).Parsed :=
  under_parsed parsed
    ((parsed.under_eq_ok_iff_below relative plain).mpr ⟨rfl, Engine.lenient_takes _⟩)

theorem below_injective (names : List Text) {left right : Branch}
    (leftRelative : left.rooted = false) (rightRelative : right.rooted = false)
    (same : left.below names = right.below names) :
    left = right := by
  obtain ⟨⟨leftRooted, leftComponents⟩, leftMode⟩ := left
  obtain ⟨⟨rightRooted, rightComponents⟩, rightMode⟩ := right
  simp only [below, mk.injEq, Glob.mk.injEq, List.append_cancel_left_eq, true_and] at same
  simp_all [rooted]

end Branch

namespace Pattern

variable {engine : Engine} {pattern : Pattern}

def below (names : List Text) (pattern : Pattern) : Pattern :=
  ⟨pattern.branches.map (Branch.below names)⟩

theorem Proper.under_eq_ok_iff_below (proper : pattern.Proper)
    (relative : ∀ branch ∈ pattern.branches, branch.rooted = false) {directory : Text}
    (rooted : startsAtRoot directory = true) (plain : ∀ name ∈ segments directory, IsPlain name)
    (result : Pattern) :
    pattern.under engine directory = .ok result ↔
      result = pattern.below (segments directory) ∧
        engine.TakesAll (pattern.below (segments directory)) := by
  have mapped : ∀ branches,
      pattern.branches.mapM (Branch.under engine (normalize directory)) = .ok branches ↔
        branches = pattern.branches.map (Branch.below (segments directory)) ∧
          engine.TakesAll (pattern.below (segments directory)) := by
    intro branches
    rw [normalize_of_rooted rooted, Engine.TakesAll, below, List.forall_mem_map]
    exact map_m_eq_ok_iff_map fun branch member _ =>
      (proper.parsed branch member).under_eq_ok_iff_below (relative branch member) plain
  have distinct :
      ((pattern.branches.map (Branch.below (segments directory))).map Branch.identity).Nodup := by
    rw [List.map_map]
    apply List.Nodup.map_on _ proper.distinct.of_map
    intro left leftMember right rightMember same
    have leftRelative := relative left leftMember
    have rightRelative := relative right rightMember
    have leftParsed := (proper.parsed left leftMember).below_parsed leftRelative plain
    have rightParsed := (proper.parsed right rightMember).below_parsed rightRelative plain
    exact Branch.below_injective _ leftRelative rightRelative
      (leftParsed.eq_of_identity rightParsed same)
  rw [proper.under_eq_ok_iff]
  simp only [mapped, and_assoc, exists_eq_left, of_branches_eq distinct]
  exact and_comm

end Pattern

end PathGlob
