import PathGlob.Proofs.Tree.Agreement
import PathGlob.Proofs.Walk.Relocation

/-!
# Walks from a directory and of the pattern below it

In a tree without colons, whatever a branch gets at from a directory, its components accept the
names behind the directory, and the components with the directory in front accept them all. So the
branch and the one below the directory match the same candidates, and since the latter only looks
names up until it is in the directory, the two walks cannot be told apart.
-/
namespace PathGlob

set_option autoImplicit false

open PathGlob.Path

namespace Component

theorem accepts_of_admits {component : Component} {rest : List Component} {name : Text}
    {back : List Text} (proper : component.Proper) (named : IsName name)
    (admits : (component.selector .sensitive rest.isEmpty).Admits name)
    (more : Glob.Accepts .sensitive rest back) :
    Glob.Accepts .sensitive (component :: rest) (name :: back) := by
  cases component with
  | literal text => exact .literal ((literal_admits_iff rest.isEmpty proper named).mp admits) more
  | compound parts =>
      exact .compound ((compound_admits_iff rest.isEmpty proper named).mp admits) more
  | globstar => exact absurd admits id

end Component

theorem Glob.accepts_globstar_cons {mode : CaseMode} {rest : List Component} {name : Text}
    {back : List Text} (noColon : ':' ∉ name) (more : Accepts mode (.globstar :: rest) back) :
    Accepts mode (.globstar :: rest) (name :: back) := by
  by_cases inner : rest = []
  · subst inner
    obtain ⟨-, others⟩ := (accepts_last_globstar_iff back).mp more
    exact .last (List.cons_ne_nil _ _) (List.forall_mem_cons.mpr ⟨noColon, others⟩)
  · exact .skip inner noColon more

theorem Glob.accepts_literals {mode : CaseMode} {components : List Component} {back : List Text}
    (names : List Text) (agrees : ∀ name ∈ names, mode.Agrees name name)
    (more : Accepts mode components back) :
    Accepts mode (names.map .literal ++ components) (names ++ back) := by
  induction names with
  | nil => exact more
  | cons name names ih =>
      rw [List.forall_mem_cons] at agrees
      exact .literal agrees.1 (ih agrees.2)

namespace Tree

variable {tree : Tree} {branch : Branch} {names : List Text} {stop : Stop}

def ColonFree (tree : Tree) : Prop :=
  ∀ path, tree.HasEntry path → ∀ name ∈ segments path, ':' ∉ name

theorem of_paths_colon_free {paths : List Text} (free : ∀ path ∈ paths, ':' ∉ path) :
    (ofPaths paths).ColonFree := by
  intro path entry name member colon
  rcases entry_of_paths entry with rfl | ⟨given, among, front, within, rfl⟩
  · cases member
  · have named : ∀ name ∈ front, IsName name := fun name member =>
      is_name_of_mem_segments (within.subset member)
    rw [segments_absolute named] at member
    exact free given among (mem_of_mem_segments (within.subset member) colon)

theorem Shape.child_name (shape : tree.Shape) (free : tree.ColonFree) {front : List Text}
    {child : Text} (frontNamed : ∀ name ∈ front, IsName name)
    (isChild : tree.IsChild (absolute front) child) :
    ∃ name, IsName name ∧ ':' ∉ name ∧ child = absolute (front ++ [name]) := by
  rcases shape.name_of_child frontNamed isChild with ⟨name, isName, rfl⟩
  have named : ∀ other ∈ front ++ [name], IsName other := by
    rw [List.forall_mem_append]
    exact ⟨frontNamed, by simpa using isName⟩
  have noColon := free _ isChild.1 name (by simp [segments_absolute named])
  exact ⟨name, isName, noColon, rfl⟩

/--
A stop amid a branch: what the components from there on accept, they all accept with the names
between the start and the stop in front.
-/
structure Passed (branch : Branch) (names : List Text) (stop : Stop) (passed : List Text) :
    Prop where
  directory : stop.directory = absolute (names ++ passed)
  named : ∀ name ∈ names ++ passed, IsName name
  accepts : ∀ back, Glob.Accepts .sensitive (branch.glob.components.drop stop.index) back →
    Glob.Accepts .sensitive branch.glob.components (passed ++ back)

theorem Passed.begin (named : ∀ name ∈ names, IsName name) :
    Passed branch names ⟨absolute names, 0⟩ [] :=
  ⟨by simp, by simpa using named, fun _ accepts => accepts⟩

theorem Passed.named_with {passed : List Text} (amid : Passed branch names stop passed)
    {name : Text} (isName : IsName name) : ∀ other ∈ names ++ (passed ++ [name]), IsName other := by
  rw [← List.append_assoc, List.forall_mem_append]
  exact ⟨amid.named, by simpa using isName⟩

/--
A further name, accepted by the components from the stop on, is passed with what is behind it.
-/
theorem Passed.name {passed : List Text} (amid : Passed branch names stop passed) {name : Text}
    {index : Nat} (isName : IsName name)
    (accepts : ∀ back, Glob.Accepts .sensitive (branch.glob.components.drop index) back →
      Glob.Accepts .sensitive (branch.glob.components.drop stop.index) (name :: back)) :
    Passed branch names ⟨absolute (names ++ passed ++ [name]), index⟩ (passed ++ [name]) where
  directory := by rw [List.append_assoc]
  named := amid.named_with isName
  accepts := by
    intro back more
    rw [List.append_assoc]
    exact amid.accepts _ (accepts back more)

theorem Passed.admitted {passed : List Text} (amid : Passed branch names stop passed)
    (parsed : branch.Parsed) (sensitive : branch.mode = .sensitive) {selector : Selector}
    (selects : branch.selectors[stop.index]? = some selector) {name : Text} (isName : IsName name)
    (admits : selector.Admits name) :
    Passed branch names ⟨absolute (names ++ passed ++ [name]), stop.index + 1⟩
      (passed ++ [name]) := by
  rw [Branch.selectors, sensitive] at selects
  obtain ⟨component, split, rfl⟩ := Component.of_selects selects
  apply amid.name isName
  intro back more
  have proper :=
    parsed.proper.components component (List.mem_of_mem_drop (split ▸ List.mem_cons_self))
  rw [split]
  exact Component.accepts_of_admits proper isName admits more

theorem Passed.descended {passed : List Text} (amid : Passed branch names stop passed)
    (selects : branch.selectors[stop.index]? = some .everywhere) {name : Text}
    (isName : IsName name)
    (noColon : ':' ∉ name) :
    Passed branch names ⟨absolute (names ++ passed ++ [name]), stop.index⟩ (passed ++ [name]) := by
  obtain ⟨component, split, same⟩ := Component.of_selects selects
  obtain rfl := Component.selector_everywhere same.symm
  apply amid.name isName
  intro back more
  rw [split] at more ⊢
  exact Glob.accepts_globstar_cons noColon more

theorem Passed.onward {passed : List Text} (amid : Passed branch names stop passed)
    (selects : branch.selectors[stop.index]? = some .everywhere)
    (inner : stop.index + 1 < branch.selectors.length) :
    Passed branch names ⟨stop.directory, stop.index + 1⟩ passed where
  directory := amid.directory
  named := amid.named
  accepts := by
    intro back more
    obtain ⟨component, split, same⟩ := Component.of_selects selects
    obtain rfl := Component.selector_everywhere same.symm
    rw [Branch.selectors, Component.length_selectors] at inner
    apply amid.accepts
    rw [split]
    exact .onward (by simpa using inner) more

section

variable (shape : tree.Shape) (free : tree.ColonFree) (parsed : branch.Parsed)
  (sensitive : branch.mode = .sensitive) {passed : List Text}

include shape free parsed sensitive

theorem Shape.passed_of_leads {next : Stop} (amid : Passed branch names stop passed)
    (leads : tree.Leads branch stop next) : ∃ further, Passed branch names next further := by
  cases leads with
  | @literal name selects inner directory =>
      have isName := parsed.is_name_of_exactly (List.mem_of_getElem? selects)
      rw [amid.directory, join_absolute amid.named isName.slash_not_mem]
      exact ⟨_, amid.admitted parsed sensitive selects isName rfl⟩
  | named selects inner readable isChild directory fits =>
      rw [amid.directory] at isChild
      obtain ⟨name, isName, -, rfl⟩ := shape.child_name free amid.named isChild
      rw [file_name_absolute _ isName.slash_not_mem] at fits
      exact ⟨_, amid.admitted parsed sensitive selects isName fits⟩
  | below selects readable isChild directory =>
      rw [amid.directory] at isChild
      obtain ⟨name, isName, noColon, rfl⟩ := shape.child_name free amid.named isChild
      exact ⟨_, amid.descended selects isName noColon⟩
  | onward selects inner readable => exact ⟨_, amid.onward selects inner⟩

theorem Shape.passed_of_reaches (named : ∀ name ∈ names, IsName name)
    (reaches : tree.Reaches branch (absolute names) stop) :
    ∃ passed, Passed branch names stop passed := by
  induction reaches with
  | refl => exact ⟨[], .begin named⟩
  | tail _ leads ih =>
      obtain ⟨passed, amid⟩ := ih
      exact shape.passed_of_leads free parsed sensitive amid leads

/-- The components of a branch accept the names between its start and what it selects. -/
theorem Shape.accepts_of_selects {found : Text} (amid : Passed branch names stop passed)
    (selected : tree.Selects branch stop found) :
    ∃ more, more ≠ [] ∧ (∀ name ∈ names ++ more, IsName name) ∧ found = absolute (names ++ more) ∧
      Glob.Accepts .sensitive branch.glob.components more := by
  have admitted : ∀ {selector : Selector} {name : Text}, IsName name →
      branch.selectors[stop.index]? = some selector → selector.Admits name →
      stop.index + 1 = branch.selectors.length →
      Glob.Accepts .sensitive branch.glob.components (passed ++ [name]) := by
    intro selector name isName selects admits last
    have arrived := (amid.admitted parsed sensitive selects isName admits).accepts []
    rw [Branch.selectors, Component.length_selectors] at last
    rw [List.drop_of_length_le (Nat.le_of_eq last.symm), List.append_nil] at arrived
    exact arrived .nothing
  cases selected with
  | @literal name selects last present =>
      have isName := parsed.is_name_of_exactly (List.mem_of_getElem? selects)
      rw [amid.directory, join_absolute amid.named isName.slash_not_mem, List.append_assoc]
      exact ⟨_, by simp, amid.named_with isName, rfl, admitted isName selects rfl last⟩
  | named selects last readable isChild fits =>
      rw [amid.directory] at isChild
      obtain ⟨name, isName, -, rfl⟩ := shape.child_name free amid.named isChild
      rw [file_name_absolute _ isName.slash_not_mem] at fits
      rw [List.append_assoc]
      exact ⟨_, by simp, amid.named_with isName, rfl, admitted isName selects fits last⟩
  | everywhere selects last readable isChild =>
      rw [amid.directory] at isChild
      obtain ⟨name, isName, noColon, rfl⟩ := shape.child_name free amid.named isChild
      obtain ⟨component, split, same⟩ := Component.of_selects selects
      obtain rfl := Component.selector_everywhere same.symm
      rw [Branch.selectors, Component.length_selectors] at last
      rw [List.append_assoc]
      refine ⟨_, by simp, amid.named_with isName, rfl, amid.accepts [name] ?_⟩
      rw [split, List.drop_of_length_le (Nat.le_of_eq last.symm)]
      exact .last (List.cons_ne_nil _ _) (by simpa using noColon)

end

end Tree

namespace Branch

variable {branch : Branch} {names more : List Text}

theorem matches_of_accepts (parsed : branch.Parsed) (relative : branch.rooted = false)
    (sensitive : branch.mode = .sensitive) (named : ∀ name ∈ names ++ more, IsName name)
    (nonempty : more ≠ []) (accepts : Glob.Accepts .sensitive branch.glob.components more) :
    branch.matchesPath (absolute (names ++ more)) = true := by
  have segments := segments_absolute named
  rw [← normalize_absolute named,
    matches_normalized_iff parsed.proper (by simp [segments, nonempty]), Glob.Describes, sensitive,
    segments]
  have unrooted : branch.glob.rooted = false := relative
  rw [unrooted, if_neg Bool.false_ne_true]
  exact .inl ⟨more, List.suffix_append names more, accepts⟩

theorem below_matches_of_accepts (parsed : branch.Parsed) (relative : branch.rooted = false)
    (plain : ∀ name ∈ names, IsPlain name) (sensitive : branch.mode = .sensitive)
    (named : ∀ name ∈ names ++ more, IsName name) (nonempty : more ≠ [])
    (accepts : Glob.Accepts .sensitive branch.glob.components more) :
    (branch.below names).matchesPath (absolute (names ++ more)) = true := by
  have segments := segments_absolute named
  have mode : (branch.below names).mode = .sensitive := sensitive
  rw [← normalize_absolute named,
    matches_normalized_iff (parsed.below_parsed relative plain).proper
      (by simp [segments, nonempty]),
    Glob.Describes, mode, segments]
  have agrees : ∀ name ∈ names, CaseMode.sensitive.Agrees name name := fun name _ =>
    (CaseMode.agrees_sensitive_iff name name).mpr rfl
  exact .inl ⟨rfl, Glob.accepts_literals names agrees accepts⟩

end Branch

namespace Tree

variable {tree : Tree} {branch : Branch} {names : List Text}

theorem Shape.is_directory_iff (shape : tree.Shape) (path : Text) :
    tree.filesystem.isDirectory path = true ↔
    tree.hasDirectory (absolute (segments path)) = true := by
  simp only [filesystem, shape.resolve_eq]

theorem Shape.start_in_rooted (shape : tree.Shape) {directory : Text}
    (rooted : startsAtRoot directory = true) :
    Walk.startIn tree.filesystem directory = absolute (segments directory) := by
  have nonempty : (normalize directory).isEmpty = false := by
    rw [normalize_of_rooted rooted]
    rfl
  rw [Walk.startIn, nonempty, if_neg Bool.false_ne_true, shape.normalize_working_directory,
    resolve_root]

section

variable (shape : tree.Shape) (free : tree.ColonFree) (parsed : branch.Parsed)
  (sensitive : branch.mode = .sensitive) (relative : branch.rooted = false)
  (plain : ∀ name ∈ names, IsPlain name)

include shape free parsed sensitive relative plain

/-- What a branch gets at from a directory is matched both by it and by the branch below. -/
theorem Shape.matches_candidate {stop : Stop} {path : Text}
    (reached : branch.Reaches tree.filesystem (absolute names) stop)
    (candidate : path ∈ (branch.expand tree.filesystem stop).candidates) :
    branch.matchesPath path = true ∧ (branch.below names).matchesPath path = true := by
  have named : ∀ name ∈ names, IsName name := fun name member => (plain name member).named
  have literals : ∀ name, .exactly name ∈ branch.selectors → IsName name := fun _ =>
    parsed.is_name_of_exactly
  have place : IsPlace (absolute names) := ⟨names, named, rfl⟩
  have base : branch.base tree.filesystem (absolute names) = absolute names :=
    Branch.base_of_relative relative (absolute names)
  rw [reaches_iff shape (base.symm ▸ place) literals, base] at reached
  have selected :=
    selects_of_candidate (shape.place_of_reaches place literals reached) literals candidate
  obtain ⟨passed, amid⟩ := shape.passed_of_reaches free parsed sensitive named reached
  obtain ⟨more, nonempty, allNamed, rfl, accepts⟩ :=
    shape.accepts_of_selects free parsed sensitive amid selected
  exact ⟨Branch.matches_of_accepts parsed relative sensitive allNamed nonempty accepts,
    Branch.below_matches_of_accepts parsed relative plain sensitive allNamed nonempty accepts⟩

theorem Shape.relocates (directory : tree.hasDirectory (absolute names) = true) :
    branch.Relocates tree.filesystem names where
  sensitive := sensitive
  relative := relative
  nonempty := by
    apply List.length_pos_iff.mp
    rw [Branch.selectors, Component.length_selectors]
    exact List.length_pos_iff.mpr parsed.proper.nonempty
  directories := by
    intro front name within
    obtain ⟨back, rfl⟩ := within
    have named : ∀ other ∈ front ++ [name] ++ back, IsName other := fun other member =>
      (plain other member).named
    rw [List.forall_mem_append] at named
    rw [shape.is_directory_iff, segments_absolute named.1]
    by_cases ends : back = []
    · simpa [ends] using directory
    · exact shape.directory_of_prefix named.2 ends (shape.entry_of_has_directory directory)
  matching := by
    intro stop reached path candidate
    obtain ⟨own, below⟩ :=
      shape.matches_candidate free parsed sensitive relative plain reached candidate
    rw [own, below]

end

/--
A walk from a directory and one of the pattern below it tell the same, wherever the latter starts.
-/
theorem Shape.walks_below (shape : tree.Shape) (free : tree.ColonFree) {pattern : Pattern}
    (proper : pattern.Proper) (sensitive : ∀ branch ∈ pattern.branches, branch.mode = .sensitive)
    (relative : ∀ branch ∈ pattern.branches, branch.rooted = false) {directory : Text}
    (rooted : startsAtRoot directory = true) (plain : ∀ name ∈ segments directory, IsPlain name)
    (isDirectory : tree.filesystem.isDirectory directory = true) (start : Text) :
    ∃ items last others otherLast,
      Step.Drains (Walk.step tree.filesystem)
        (Walk.begin pattern tree.filesystem directory) items last ∧
      Step.Drains (Walk.step tree.filesystem)
        (Walk.begin (pattern.below (segments directory)) tree.filesystem start)
        others otherLast ∧
      others.map Walk.observed = items.map Walk.observed ∧ otherLast.read = last.read := by
  have relocates : ∀ branch ∈ pattern.branches,
      branch.Relocates tree.filesystem (segments directory) := fun branch member =>
    shape.relocates free (proper.parsed branch member) (sensitive branch member)
      (relative branch member) plain ((shape.is_directory_iff directory).mp isDirectory)
  obtain ⟨record, traversed⟩ :=
    Pattern.traverse_ends (shape.territory proper.parsed directory) (Nat.lt_succ_self _)
  obtain ⟨other, otherTraversed, agrees⟩ :=
    Pattern.traverse_mirrors (fun _ => is_name_of_mem_segments) rfl (shape.start_in_rooted rooted)
      relocates start traversed
  obtain ⟨items, last, drains, findings, read⟩ := Walk.drains_of_traverse traversed
  obtain ⟨others, otherLast, otherDrains, otherFindings, otherRead⟩ :=
    Walk.drains_of_traverse otherTraversed
  refine ⟨items, last, others, otherLast, drains, otherDrains, ?_, ?_⟩
  · rw [otherFindings, findings, agrees.findings]
  · rw [otherRead, read, agrees.read]

/--
In a tree built from paths without colons, some of its directories unreadable, a walk of a case
sensitive pattern without rooted branches from a directory, given by any rooted path that a glob can
spell, and a walk of the pattern below the directory from anywhere hand out the same paths and
failures, having read the same directories by each of them and by the end. The pattern below the
directory is there for every engine that takes its expressions, and for no other.
-/
theorem walk_from_directory_is_walk_under (paths unreadable : List Text)
    (free : ∀ path ∈ paths, ':' ∉ path) {pattern : Pattern} (built : pattern.Built)
    (sensitive : ∀ branch ∈ pattern.branches, branch.mode = .sensitive)
    (relative : ∀ branch ∈ pattern.branches, branch.rooted = false) {directory : Text}
    (rooted : startsAtRoot directory = true)
    (isDirectory : { ofPaths paths with unreadable }.filesystem.isDirectory directory = true)
    (plain : ∀ name ∈ segments directory, name ≠ ['.', '.'] ∧
      ∀ character ∈ name, character ∉ ['[', ']', '{', '}', '*', ';']) (start : Text) :
    ∃ prefixed : Pattern,
      (∀ engine result, pattern.under engine directory = .ok result ↔
        result = prefixed ∧ engine.TakesAll prefixed) ∧
      ∃ items last others otherLast,
        Step.Drains (Walk.step { ofPaths paths with unreadable }.filesystem)
          (Walk.begin pattern { ofPaths paths with unreadable }.filesystem directory) items last ∧
        Step.Drains (Walk.step { ofPaths paths with unreadable }.filesystem)
          (Walk.begin prefixed { ofPaths paths with unreadable }.filesystem start) others
            otherLast ∧
        others.map Walk.observed = items.map Walk.observed ∧ otherLast.read = last.read := by
  have shape := (of_paths_shape paths).with_unreadable unreadable
  have names : ∀ name ∈ segments directory, IsPlain name := fun name among =>
    is_plain_of_segment among (plain name among).1 (plain name among).2
  exact ⟨_, fun engine => built.proper.under_eq_ok_iff_below relative rooted names,
    shape.walks_below (of_paths_colon_free free) built.proper sensitive relative rooted names
      isDirectory start⟩

/--
The pattern `**;b/*` from `/a`, with `/a/b` unreadable, and below `/a` from a directory not there.
-/
theorem walk_from_directory_is_walk_under_unreadable :
    ∃ pattern, Pattern.compile .lenient ['*', '*', ';', 'b', '/', '*'] .sensitive = .ok pattern ∧
      ∃ prefixed, pattern.under .lenient ['/', 'a'] = .ok prefixed ∧
        ∃ items last others otherLast,
          Step.Drains
            (Walk.step { ofPaths [['/', 'a', '/', 'b', '/', 'c']] with
              unreadable := [['/', 'a', '/', 'b']] }.filesystem)
            (Walk.begin pattern { ofPaths [['/', 'a', '/', 'b', '/', 'c']] with
              unreadable := [['/', 'a', '/', 'b']] }.filesystem ['/', 'a']) items last ∧
          Step.Drains
            (Walk.step { ofPaths [['/', 'a', '/', 'b', '/', 'c']] with
              unreadable := [['/', 'a', '/', 'b']] }.filesystem)
            (Walk.begin prefixed { ofPaths [['/', 'a', '/', 'b', '/', 'c']] with
              unreadable := [['/', 'a', '/', 'b']] }.filesystem ['/', 'x']) others otherLast ∧
          others.map Walk.observed = items.map Walk.observed ∧ otherLast.read = last.read := by
  have compiled : Pattern.compile .lenient ['*', '*', ';', 'b', '/', '*'] .sensitive = .ok
      ⟨[⟨⟨false, [.globstar]⟩, .sensitive⟩,
        ⟨⟨false, [.literal ['b'], .compound [.star]]⟩, .sensitive⟩]⟩ := by decide +kernel
  have names : segments ['/', 'a'] = [['a']] := by decide
  obtain ⟨prefixed, joined, walks⟩ := walk_from_directory_is_walk_under
    [['/', 'a', '/', 'b', '/', 'c']] [['/', 'a', '/', 'b']] (by decide) (.compiled compiled)
    (by decide) (by decide) (show startsAtRoot ['/', 'a'] = true from rfl) (by decide +kernel)
    (by simp [names]) ['/', 'x']
  have taken := Engine.lenient_takes_all prefixed
  exact ⟨_, compiled, prefixed, (joined .lenient prefixed).mpr ⟨rfl, taken⟩, walks⟩

end Tree

end PathGlob
