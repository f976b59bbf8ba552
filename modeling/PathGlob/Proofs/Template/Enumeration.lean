import PathGlob.Proofs.Template.Cover
import PathGlob.Proofs.Tree.Agreement
import PathGlob.Template.Enumeration

/-!
# Enumeration finds every match

A template is enumerated by walking its plain glob and matching what is found once more. The plain
glob is read back from its written form, and it takes at least what the template takes, so no match
is lost on the way; what it takes beyond that is dropped. On a readable tree, a template that starts
at the root or with `**` therefore yields each match of an entry once, and nothing else.
-/
namespace PathGlob

set_option autoImplicit false

open PathGlob.Path

namespace Template

variable {template : Template}

def keep (template : Template) : Finding × Walk → Option (TemplateFinding × Walk)
  | (.failure error, walk) => some (.failure error, walk)
  | (.path path, walk) => (template.match? path).map fun found => (.found found, walk)

theorem runs_step {filesystem : Filesystem} {walk last : Walk} {items : List (Finding × Walk)}
    (runs : Step.Runs (Walk.step filesystem) walk items last) :
    Step.Runs (template.step filesystem) walk (items.filterMap template.keep) last := by
  induction runs with
  | here walk => exact .here walk
  | @silent walk next last items moves more ih =>
      have passed : template.step filesystem walk = .silent next := by rw [step, moves]
      exact .silent passed ih
  | @item walk next last found items moves more ih =>
      cases found with
      | failure error =>
          have passed :
              template.step filesystem walk = .item (.failure error) next := by rw [step, moves]
          exact .item passed ih
      | path path =>
          cases matched : template.match? path with
          | some found =>
              have passed : template.step filesystem walk = .item (.found found) next := by
                rw [step, moves]
                simp [matched]
              have kept : template.keep (.path path, next) = some (.found found, next) := by
                simp [keep, matched]
              rw [List.filterMap_cons_some kept]
              exact .item passed ih
          | none =>
              have dropped : template.step filesystem walk = .silent next := by
                rw [step, moves]
                simp [matched]
              have gone : template.keep (.path path, next) = none := by simp [keep, matched]
              rw [List.filterMap_cons_none gone]
              exact .silent dropped ih

/-- Enumerating hands out the items of the walk that the template keeps. -/
theorem drains_step {filesystem : Filesystem} {walk last : Walk} {items : List (Finding × Walk)}
    (drains : Step.Drains (Walk.step filesystem) walk items last) :
    Step.Drains (template.step filesystem) walk (items.filterMap template.keep) last := by
  obtain ⟨runs, ended⟩ := drains.runs
  apply (runs_step runs).drains
  rw [step, ended]

theorem map_keep {items : List (Finding × Walk)} (readable : items.filterMap (·.1.failure?) = []) :
    (items.filterMap template.keep).map (·.1) =
      ((items.filterMap (·.1.path?)).filterMap template.match?).map .found := by
  rw [List.map_filterMap, List.filterMap_filterMap, List.map_filterMap]
  apply List.filterMap_congr
  intro item member
  have noFailure := List.filterMap_eq_nil_iff.mp readable item member
  obtain ⟨finding, walk⟩ := item
  cases finding with
  | failure error => cases noFailure
  | path path => simp [keep, Finding.path?, Function.comp_def]

theorem paths_sublist {paths : List Text} (places : ∀ path ∈ paths, IsPlace path) :
    ((paths.filterMap template.match?).map TemplateMatch.path).Sublist paths := by
  induction paths with
  | nil => exact .slnil
  | cons path paths ih =>
      have others := ih fun other member => places other (List.mem_cons_of_mem path member)
      cases matched : template.match? path with
      | none =>
          rw [List.filterMap_cons_none matched]
          exact others.cons path
      | some found =>
          have same := path_of_match matched
          rw [(places path List.mem_cons_self).normalize_eq] at same
          rw [List.filterMap_cons_some matched, List.map_cons, same]
          exact others.cons_cons path

theorem branch_opens
    (opens : template.glob.rooted = true ∨ ∃ rest, template.glob.components = .globstar :: rest) :
    template.branch.rooted = true ∨
    ∃ rest, template.branch.glob.components = .globstar :: rest := by
  refine opens.imp id fun globstar => ?_
  obtain ⟨rest, same⟩ := globstar
  exact ⟨rest.map Component.anonymous, congrArg (List.map Component.anonymous) same⟩

end Template

namespace Tree

variable {tree : Tree}

theorem Exhausts.no_failures {pattern : Pattern} {start : Text} {items : List (Finding × Walk)}
    (exhausts : tree.Exhausts pattern start items) (readable : tree.unreadable = []) :
    items.filterMap (·.1.failure?) = [] := by
  obtain ⟨failing, -, fails, count⟩ := exhausts.failures
  have none : failing = [] := by
    rw [List.eq_nil_iff_forall_not_mem]
    intro pair member
    obtain ⟨branch, -, -, unreadable, -⟩ := (fails pair.1 pair.2).mp member
    rw [readable] at unreadable
    cases unreadable
  rw [← List.length_eq_zero_iff, count, none, List.length_nil]

/--
What the walk through the plain glob finds on a readable tree includes every match of an entry.
-/
theorem Shape.mem_matches_iff (shape : tree.Shape) (readable : tree.unreadable = [])
    {template : Template} (proper : template.Proper)
    (opens : template.glob.rooted = true ∨ ∃ rest, template.glob.components = .globstar :: rest)
    {items : List (Finding × Walk)} (exhausts : tree.Exhausts template.plain ['/'] items)
    (found : TemplateMatch) :
    found ∈ (items.filterMap (·.1.path?)).filterMap template.match? ↔
      ∃ entry, tree.HasEntry entry ∧ entry ≠ ['/'] ∧ template.match? entry = some found := by
  have finds :
      ∀ path, path ∈ items.filterMap (·.1.path?) ↔ tree.Finds template.branch ['/'] path := by
    intro path
    rw [exhausts.paths, proper.plain]
    simp
  rw [List.mem_filterMap]
  constructor
  · intro candidate
    obtain ⟨path, member, matched⟩ := candidate
    obtain ⟨entry, notRoot⟩ := shape.entry_of_finds proper.parsed ((finds path).mp member)
    exact ⟨path, entry, notRoot, matched⟩
  · intro matched
    obtain ⟨path, entry, notRoot, matched⟩ := matched
    have place := shape.places path entry
    have candidate := proper.candidate_of_match (Option.isSome_of_eq_some matched)
    rw [place.normalize_eq] at candidate
    have found :=
      shape.finds_of_matches readable proper.parsed
        (Template.branch_opens opens) entry notRoot candidate
    exact ⟨path, (finds path).mpr found, matched⟩

/--
Enumerating a template that is rooted or opens with `**` from the root of a readable tree comes to
an end, having yielded each match of an entry other than the root once, and nothing else.
-/
theorem enumeration_agrees_with_matching (paths : List Text) {text : Text} {mode : CaseMode}
    {engine : Engine} {template : Template}
    (compiled : Template.compile engine text mode = .ok template)
    (opens : template.glob.rooted = true ∨ ∃ rest, template.glob.components = .globstar :: rest) :
    ∃ items last, ∃ yielded : List TemplateMatch,
      Step.Drains (template.step (ofPaths paths).filesystem)
        (template.candidates (ofPaths paths).filesystem ['/']) items last ∧
      items.map (·.1) = yielded.map .found ∧ (yielded.map TemplateMatch.path).Nodup ∧
      ∀ found, found ∈ yielded ↔
        ∃ entry,
          (ofPaths paths).HasEntry entry ∧ entry ≠ ['/'] ∧ template.match? entry = some found := by
  have shape := of_paths_shape paths
  have readable := of_paths_unreadable paths
  have proper := Template.compile_proper compiled
  have parsed : ∀ branch ∈ template.plain.branches, branch.Parsed := by
    rw [proper.plain]
    simpa using proper.parsed
  obtain ⟨items, last, drains, exhausts⟩ := shape.walk_exhausts parsed ['/']
  have places : ∀ path ∈ items.filterMap (·.1.path?), IsPlace path := by
    intro path member
    obtain ⟨branch, among, finds⟩ := (exhausts.paths path).mp member
    exact shape.places path (shape.entry_of_finds (parsed branch among) finds).1
  exact ⟨_, last, _, Template.drains_step drains, Template.map_keep (exhausts.no_failures readable),
    exhausts.distinct.sublist (Template.paths_sublist places),
    shape.mem_matches_iff readable proper opens exhausts⟩

/--
The template `/{a}{b}.*` on a tree with the name `x`, which the plain glob takes and the template,
with two characters to capture, does not.
-/
theorem enumeration_agrees_with_matching_narrower :
    ∃ template, Template.compile .lenient ['/', '{', 'a', '}', '{', 'b', '}', '.', '*'] .sensitive =
        .ok template ∧
      template.plain.matchesPath ['/', 'x'] = true ∧ template.match? ['/', 'x'] = none ∧
      ∃ items last, ∃ yielded : List TemplateMatch,
        Step.Drains (template.step (ofPaths [['/', 'x'], ['/', 'x', 'y', '.', 'c']]).filesystem)
          (template.candidates (ofPaths [['/', 'x'], ['/', 'x', 'y', '.', 'c']]).filesystem ['/'])
          items last ∧
        items.map (·.1) = yielded.map .found ∧ (yielded.map TemplateMatch.path).Nodup ∧
        ∀ found, found ∈ yielded ↔
          ∃ entry, (ofPaths [['/', 'x'], ['/', 'x', 'y', '.', 'c']]).HasEntry entry ∧
            entry ≠ ['/'] ∧ template.match? entry = some found := by
  have compiled :
      Template.compile .lenient ['/', '{', 'a', '}', '{', 'b', '}', '.', '*'] .sensitive = .ok
        ⟨['/', '{', 'a', '}', '{', 'b', '}', '.', '*'],
          ⟨true, [.compound [.placeholder ['a'], .placeholder ['b'], .literal ['.'], .star]]⟩,
          .sensitive,
          ⟨[⟨⟨true, [.compound [.star, .literal ['.'], .star]]⟩, .sensitive⟩]⟩⟩ := by
    decide +kernel
  exact ⟨_, compiled, by decide +kernel, by decide +kernel,
    enumeration_agrees_with_matching _ compiled (.inl rfl)⟩

end Tree

end PathGlob
