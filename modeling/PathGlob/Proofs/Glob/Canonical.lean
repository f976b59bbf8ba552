import Mathlib.Data.List.Destutter
import Mathlib.Data.List.Forall2
import PathGlob.Proofs.Glob.Spelling

/-!
# Canonical globs

A canonical glob has no component that stands for nothing, nothing in it runs together with its
neighbour, and so it is read back from what it writes. Reading makes canonical globs only, and they
stay canonical when their placeholders lose their names. The canonical text of a glob is what is
written then; it spells the plain glob, which is the glob itself if there was no placeholder.
-/
namespace PathGlob

set_option autoImplicit false

/-- Pairs that agree on what is kept stay paired when neighbours are thinned out. -/
theorem destutter_paired {Left Right : Type} {Related : Left → Right → Prop}
    {keeps : Left → Left → Prop} {others : Right → Right → Prop} [DecidableRel keeps]
    [DecidableRel others]
    (agree : ∀ {left right}, Related left right → ∀ {next following}, Related next following →
      (keeps left next ↔ others right following))
    {lefts : List Left} {rights : List Right} (paired : List.Forall₂ Related lefts rights) :
    List.Forall₂ Related (lefts.destutter keeps) (rights.destutter others) := by
  cases paired with
  | nil => exact .nil
  | @cons left right lefts rights first paired =>
      change List.Forall₂ Related (lefts.destutter' keeps left) (rights.destutter' others right)
      induction paired generalizing left right with
      | nil => exact .cons first .nil
      | @cons next following lefts rights second _ ih =>
          by_cases kept : keeps left next
          · rw [List.destutter'_cons_pos _ kept,
              List.destutter'_cons_pos _ ((agree first second).mp kept)]
            exact .cons first (ih second)
          · rw [List.destutter'_cons_neg _ kept,
              List.destutter'_cons_neg _ (mt (agree first second).mpr kept)]
            exact ih first

theorem mem_paired_iff {Left Right : Type} {Related : Left → Right → Prop} {lefts : List Left}
    {rights : List Right} (paired : List.Forall₂ Related lefts rights) {one : Left} {other : Right}
    (agree : ∀ {left right}, Related left right → (left = one ↔ right = other)) :
    one ∈ lefts ↔ other ∈ rights := by
  induction paired with
  | nil => simp
  | cons first _ ih => rw [List.mem_cons, List.mem_cons, ih, eq_comm, agree first, eq_comm]

namespace Component

def Apart (left right : Component) : Prop := left ≠ .globstar ∨ right ≠ .globstar

instance : DecidableRel Apart := fun _ _ => inferInstanceAs (Decidable (_ ∨ _))

theorem merge_eq_destutter (components : List Component) :
    merge components = components.destutter Apart := by
  fun_induction merge components with
  | case1 rest ih =>
      rw [ih, List.destutter_cons_cons, if_neg (by decide)]
      rfl
  | case2 component rest other ih =>
      cases rest with
      | nil => rfl
      | cons next rest =>
          have apart : Apart component next := by
            by_contra together
            simp only [Apart, not_or, not_not] at together
            exact other rest together.1 (by rw [together.2])
          rw [ih, List.destutter_cons_cons, if_pos apart]
          rfl
  | case3 => rfl

theorem tidy_apart (components : List Component) : (tidy components).IsChain Apart := by
  rw [tidy, merge_eq_destutter]
  exact List.isChain_destutter _ _

theorem tidy_eq_self {components : List Component}
    (busy : ∀ component ∈ components, component.isIdle = false) (apart : components.IsChain Apart) :
    tidy components = components := by
  have kept : components.filter (!·.isIdle) = components :=
    List.filter_eq_self.mpr (by simpa using busy)
  rw [tidy, kept, merge_eq_destutter, List.destutter_of_isChain _ _ apart]

end Component

/-- What reading makes of a text: components that mean something, none of which run together. -/
structure Glob.Canonical (glob : Glob) : Prop where
  proper : glob.Proper
  legible : ∀ component ∈ glob.components, component.Legible
  apart : glob.components.IsChain Component.Apart

namespace Glob

open PathGlob.Path

theorem read_canonical {text : Text} {glob : Glob} (spelled : read text = .ok glob) :
    (∀ component ∈ glob.components, component.Legible) ∧
    glob.components.IsChain Component.Apart := by
  unfold read at spelled
  split at spelled
  · cases spelled
  · rename_i components rest parts
    split at spelled
    · cases spelled
    · split at spelled
      · cases spelled
        refine ⟨?_, Component.tidy_apart components⟩
        intro component member
        exact read_components_legible parts component (Component.mem_tidy member).1
      · cases spelled

theorem parse_canonical {text : Text} {glob : Glob} (parsed : parse text = .ok glob) :
    glob.Canonical := by
  have proper := parse_proper parsed
  unfold parse at parsed
  split at parsed
  · cases parsed
  · rename_i read spelled
    split at parsed
    · cases parsed
    · cases parsed
      exact ⟨proper, (read_canonical spelled).1, (read_canonical spelled).2⟩

end Glob

theorem Part.Proper.print_starts {part : Part} (proper : part.Proper) :
    ∃ first rest, part.print = first :: rest ∧ Path.isSeparator first = false := by
  cases part with
  | star => exact ⟨'*', [], rfl, rfl⟩
  | literal run =>
      obtain ⟨first, rest, rfl⟩ := List.exists_cons_of_ne_nil proper.nonempty
      exact ⟨first, rest, rfl, separator_free_of_plain proper.plain first List.mem_cons_self⟩
  | oneOf characters => exact ⟨'[', characters ++ [']'], rfl, rfl⟩
  | placeholder name => exact ⟨'{', name ++ ['}'], rfl, rfl⟩

theorem Component.Proper.print_starts {component : Component} (proper : component.Proper) :
    ∃ first rest, component.print = first :: rest ∧ Path.isSeparator first = false := by
  cases component with
  | literal text =>
      have busy := proper.busy
      rw [isIdle, Bool.or_eq_false_iff, beq_eq_false_iff_ne] at busy
      obtain ⟨first, rest, rfl⟩ :=
        List.exists_cons_of_ne_nil fun none => busy.1 (congrArg literal none)
      exact ⟨first, rest, rfl, separator_free_of_plain proper.spelled first List.mem_cons_self⟩
  | compound parts =>
      obtain ⟨part, parts, rfl⟩ := List.exists_cons_of_ne_nil proper.spelled.1
      obtain ⟨first, rest, starts, other⟩ := (proper.spelled.2 part List.mem_cons_self).print_starts
      exact ⟨first, rest ++ parts.flatMap Part.print, by simp [print, starts], other⟩
  | globstar => exact ⟨'*', ['*'], rfl, rfl⟩

namespace Glob

open PathGlob.Path

theorem print_cons (rooted : Bool) (component : Component) (components : List Component) :
    print ⟨rooted, component :: components⟩ =
      (if rooted then ['/'] else []) ++
        (component.print ++ slashed (components.map Component.print)) := by
  rw [print, List.map_cons, join_with_cons]

theorem starts_at_root_print {glob : Glob} (proper : glob.Proper) :
    startsAtRoot glob.print = glob.rooted ∧ body glob.print = print ⟨false, glob.components⟩ := by
  obtain ⟨rooted, components⟩ := glob
  obtain ⟨component, components, rfl⟩ := List.exists_cons_of_ne_nil proper.nonempty
  obtain ⟨first, rest, starts, other⟩ :=
    (proper.components component List.mem_cons_self).print_starts
  rw [body, print_cons, print_cons, starts]
  cases rooted with
  | true => exact ⟨rfl, rfl⟩
  | false => simp [startsAtRoot, other]

/-- A canonical glob is read back from what it writes. -/
theorem Canonical.parse_print {glob : Glob} (canonical : glob.Canonical) :
    parse glob.print = .ok glob := by
  obtain ⟨starts, behind⟩ := starts_at_root_print canonical.proper
  have nonempty := canonical.proper.nonempty
  have proper := canonical.proper.components
  have tidy := Component.tidy_eq_self (fun component member => (proper component member).busy)
    canonical.apart
  have noParent : glob.components.contains (.literal ['.', '.']) = false := by
    rw [Bool.eq_false_iff]
    intro member
    exact (proper _ (List.contains_iff_mem.mp member)).notParent rfl
  have components :
      readComponents (print ⟨false, glob.components⟩) = .ok (glob.components, []) := by
    obtain ⟨component, rest, same⟩ := List.exists_cons_of_ne_nil nonempty
    have legible := canonical.legible
    rw [same] at proper legible ⊢
    rw [print_cons]
    exact read_components_written (fun other member => (proper other member).spelled) legible
  have spelled : read glob.print = .ok glob := by
    rw [read, behind, components, starts]
    dsimp only
    rw [noParent, tidy]
    rfl
  rw [parse, spelled]
  simp [nonempty]

end Glob

namespace Part

def isLiteral : Part → Bool
  | .literal _ => true
  | _ => false

def NotBothStar (left right : Part) : Prop := ¬(left = .star ∧ right = .star)

instance : DecidableRel NotBothStar := fun _ _ => inferInstanceAs (Decidable ¬_)

theorem merge_eq_destutter_stars (parts : List Part) :
    merge parts = parts.destutter NotBothStar := by
  fun_induction merge parts with
  | case1 rest ih =>
      rw [ih, List.destutter_cons_cons, if_neg (by decide)]
      rfl
  | case2 part rest other ih =>
      cases rest with
      | nil => rfl
      | cons next rest =>
          have apart : NotBothStar part next := by
            rintro ⟨rfl, rfl⟩
            exact other rest rfl rfl
          rw [ih, List.destutter_cons_cons, if_pos apart]
          rfl
  | case3 => rfl

theorem head_merge (parts : List Part) : (merge parts).head? = parts.head? := by
  fun_induction merge parts with
  | case1 rest ih => exact ih
  | case2 => rfl
  | case3 => rfl

/-- Where no literals are neighbours, merging stars leaves parts that do not run together. -/
theorem merge_eq_destutter {parts : List Part}
    (literals : parts.IsChain fun left right => ¬(left.isLiteral = true ∧ right.isLiteral = true)) :
    merge parts = parts.destutter Apart := by
  fun_induction merge parts with
  | case1 rest ih =>
      rw [ih (List.isChain_cons.mp literals).2, List.destutter_cons_cons, if_neg (by decide)]
      rfl
  | case2 part rest other ih =>
      cases rest with
      | nil => rfl
      | cons next rest =>
          obtain ⟨notLiterals, literals⟩ := List.isChain_cons_cons.mp literals
          have apart : Apart part next := by
            by_contra together
            rw [Apart, Bool.not_eq_false] at together
            cases part <;> cases next <;> simp_all [runsInto, isLiteral]
          rw [ih literals, List.destutter_cons_cons, if_pos apart]
          rfl
  | case3 => rfl

theorem literals_of_apart {parts : List Part} (apart : parts.IsChain Apart) :
    parts.IsChain fun left right => ¬(left.isLiteral = true ∧ right.isLiteral = true) := by
  apply apart.imp
  intro left right
  cases left <;> cases right <;> simp [Apart, runsInto, isLiteral]

theorem is_literal_anonymous (part : Part) : part.anonymous.isLiteral = part.isLiteral := by
  cases part <;> rfl

theorem literals_of_anonymous {parts : List Part} (apart : parts.IsChain Apart) :
    (parts.map anonymous).IsChain
      fun left right => ¬(left.isLiteral = true ∧ right.isLiteral = true) := by
  simpa only [List.isChain_map, is_literal_anonymous] using literals_of_apart apart

theorem merge_anonymous_apart {parts : List Part} (apart : parts.IsChain Apart) :
    (merge (parts.map anonymous)).IsChain Apart := by
  rw [merge_eq_destutter (literals_of_anonymous apart)]
  exact List.isChain_destutter _ _

theorem mem_merge_anonymous {part : Part} {parts : List Part}
    (member : part ∈ merge (parts.map anonymous)) :
    ∃ origin ∈ parts, origin.anonymous = part := by
  rw [merge_eq_destutter_stars] at member
  exact List.mem_map.mp ((List.destutter_sublist _ _).subset member)

theorem merge_anonymous_ne_literal {parts : List Part} (several : ∀ text, parts ≠ [.literal text])
    (text : Text) : merge (parts.map anonymous) ≠ [.literal text] := by
  intro same
  have first := head_merge (parts.map anonymous)
  rw [same] at first
  cases parts with
  | nil => cases first
  | cons part parts =>
      cases part with
      | literal run =>
          have merged : merge ((literal run :: parts).map anonymous) =
              literal run :: merge (parts.map anonymous) := rfl
          have rest := head_merge (parts.map anonymous)
          rw [merged, List.cons.injEq] at same
          rw [same.2] at rest
          cases parts with
          | nil => exact several run rfl
          | cons next parts => cases rest
      | _ => cases first

theorem anonymous_eq_self {part : Part} (plain : part.name? = none) : part.anonymous = part := by
  cases part with
  | placeholder name => cases plain
  | _ => rfl

theorem merge_anonymous_eq_self {parts : List Part} (apart : parts.IsChain Apart)
    (plain : ∀ part ∈ parts, part.name? = none) : merge (parts.map anonymous) = parts := by
  have kept : parts.map anonymous = parts :=
    (List.map_congr_left fun part member => anonymous_eq_self (plain part member)).trans
      (List.map_id parts)
  rw [kept, merge_eq_destutter (literals_of_apart apart), List.destutter_of_isChain _ _ apart]

theorem Proper.anonymous {part : Part} (proper : part.Proper) : part.anonymous.Proper := by
  cases part with
  | placeholder name => trivial
  | _ => exact proper

end Part

namespace Component

theorem Proper.anonymous {component : Component} (proper : component.Proper)
    (legible : component.Legible) : component.anonymous.Proper := by
  cases component with
  | compound parts =>
      have nonempty : Part.merge (parts.map Part.anonymous) ≠ [] := by
        intro none
        have first := Part.head_merge (parts.map Part.anonymous)
        rw [none, List.head?_nil, eq_comm, List.head?_eq_none_iff, List.map_eq_nil_iff] at first
        exact proper.spelled.1 first
      refine ⟨⟨nonempty, ?_⟩, rfl, Component.noConfusion⟩
      intro part member
      obtain ⟨origin, among, rfl⟩ := Part.mem_merge_anonymous member
      exact (proper.spelled.2 origin among).anonymous
  | _ => exact proper

theorem Legible.anonymous {component : Component} (legible : component.Legible) :
    component.anonymous.Legible := by
  cases component with
  | compound parts =>
      exact ⟨Part.merge_anonymous_ne_literal legible.1, Part.merge_anonymous_apart legible.2⟩
  | _ => trivial

theorem anonymous_eq_globstar_iff (component : Component) :
    component.anonymous = .globstar ↔ component = .globstar := by
  cases component <;> simp [Component.anonymous]

theorem anonymous_eq_self {component : Component} (legible : component.Legible)
    (plain : ∀ part ∈ component.parts, part.name? = none) : component.anonymous = component := by
  cases component with
  | compound parts => exact congrArg compound (Part.merge_anonymous_eq_self legible.2 plain)
  | _ => rfl

theorem name_of_mem_anonymous {component : Component} {part : Part}
    (member : part ∈ component.anonymous.parts) : part.name? = none := by
  cases component with
  | compound parts =>
      obtain ⟨origin, -, rfl⟩ := Part.mem_merge_anonymous member
      cases origin <;> rfl
  | _ => cases member

end Component

namespace Glob

theorem placeholders_eq_nil_iff (glob : Glob) :
    glob.placeholders = [] ↔
      ∀ component ∈ glob.components, ∀ part ∈ component.parts, part.name? = none := by
  simp only [placeholders, List.filterMap_eq_nil_iff, List.mem_flatMap, forall_exists_index,
    and_imp]
  exact ⟨fun none component member part inside => none part component member inside,
    fun none part component member inside => none component member part inside⟩

theorem placeholders_anonymous (glob : Glob) : glob.anonymous.placeholders = [] := by
  rw [placeholders_eq_nil_iff]
  intro component member
  obtain ⟨origin, -, rfl⟩ := List.mem_map.mp member
  exact fun part inside => Component.name_of_mem_anonymous inside

namespace Canonical

variable {glob : Glob}

theorem anonymous (canonical : glob.Canonical) : glob.anonymous.Canonical where
  proper := by
    refine ⟨mt List.map_eq_nil_iff.mp canonical.proper.nonempty, ?_⟩
    intro component member
    obtain ⟨origin, among, rfl⟩ := List.mem_map.mp member
    exact (canonical.proper.components origin among).anonymous (canonical.legible origin among)
  legible := by
    intro component member
    obtain ⟨origin, among, rfl⟩ := List.mem_map.mp member
    exact (canonical.legible origin among).anonymous
  apart := by
    rw [Glob.anonymous, List.isChain_map]
    apply canonical.apart.imp
    intro left right apart
    rwa [Component.Apart, Ne, Ne, Component.anonymous_eq_globstar_iff,
      Component.anonymous_eq_globstar_iff]

theorem anonymous_eq_self (canonical : glob.Canonical) (plain : glob.placeholders = []) :
    glob.anonymous = glob := by
  rw [placeholders_eq_nil_iff] at plain
  have kept : glob.components.map Component.anonymous = glob.components :=
    (List.map_congr_left fun component member =>
      Component.anonymous_eq_self (canonical.legible component member)
        (plain component member)).trans
      (List.map_id glob.components)
  rw [Glob.anonymous, kept]

theorem parse_text (canonical : glob.Canonical) : parse glob.text = .ok glob.anonymous :=
  canonical.anonymous.parse_print

end Canonical

end Glob

end PathGlob
