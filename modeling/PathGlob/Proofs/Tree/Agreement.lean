import PathGlob.Proofs.Pattern.Matching
import PathGlob.Proofs.Tree.Walks

/-!
# Walking agrees with matching

A walk compares one name at a time and does not look where no name can fit, matching searches the
full path for one expression. For branches that start at the root, or with `**`, both come to the
same on every readable tree: what the components accept segment by segment, the walk approaches
segment by segment. The names already gone through and those still ahead make up the path of an
entry, so every directory on the way is there to be gone through.
-/
namespace PathGlob

set_option autoImplicit false

open PathGlob.Path

def Selector.Admits (name : Text) : Selector → Prop
  | .exactly wanted => wanted = name
  | .named regex => regex.found name = true
  | .everywhere => False

namespace CaseMode

theorem agrees_sensitive_iff (left right : Text) : sensitive.Agrees left right ↔ left = right := by
  have same : (fun one other => sensitive.agree one other = true) = (Eq : Char → Char → Prop) := by
    funext one other
    exact propext beq_iff_eq
  rw [Agrees, same, List.forall₂_eq_eq_eq]

end CaseMode

namespace Component

theorem literal_admits_iff {mode : CaseMode} {text name : Text} (isLast : Bool)
    (proper : (literal text).Proper) (named : IsName name) :
    ((literal text).selector mode isLast).Admits name ↔ mode.Agrees text name := by
  cases mode with
  | sensitive => exact (CaseMode.agrees_sensitive_iff text name).symm
  | insensitive =>
      have busy := proper.busy
      rw [isIdle, Bool.or_eq_false_iff, beq_eq_false_iff_ne] at busy
      have nonempty : text ≠ [] := fun none => busy.1 (congrArg literal none)
      have parts : ∀ part ∈ [Part.literal text], part.Proper := by
        intro part member
        rw [List.mem_singleton.mp member]
        exact ⟨nonempty, proper.spelled⟩
      have plain : (if isLast then Part.dotStar? [.literal text] else none) = none := by
        cases isLast <;> rfl
      refine (name_regex_found_iff .insensitive isLast parts named.slash_not_mem).trans ?_
      rw [describe_segment_plain_iff .insensitive plain, Part.describe_all_singleton_iff]
      rfl

theorem compound_admits_iff {mode : CaseMode} {parts : List Part} {name : Text} (isLast : Bool)
    (proper : (compound parts).Proper) (named : IsName name) :
    ((compound parts).selector mode isLast).Admits name ↔ DescribeSegment mode isLast parts name :=
  name_regex_found_iff mode isLast proper.spelled.2 named.slash_not_mem

theorem length_selectors (mode : CaseMode) (components : List Component) :
    (selectors mode components).length = components.length := by
  induction components with
  | nil => rfl
  | cons component rest ih => rw [selectors, List.length_cons, List.length_cons, ih]

theorem selectors_append (mode : CaseMode) (before : List Component) (component : Component)
    (rest : List Component) :
    (selectors mode (before ++ component :: rest))[before.length]? =
      some (component.selector mode rest.isEmpty) := by
  induction before with
  | nil => rfl
  | cons first before ih => exact ih

theorem of_selects {mode : CaseMode} {components : List Component} {index : Nat}
    {selector : Selector} (selects : (selectors mode components)[index]? = some selector) :
    ∃ component, components.drop index = component :: components.drop (index + 1) ∧
      selector = component.selector mode (components.drop (index + 1)).isEmpty := by
  induction components generalizing index with
  | nil => cases selects
  | cons component rest ih =>
      cases index with
      | zero =>
          cases selects
          exact ⟨component, rfl, rfl⟩
      | succ index => exact ih selects

theorem selector_everywhere {component : Component} {mode : CaseMode} {isLast : Bool}
    (same : component.selector mode isLast = .everywhere) : component = .globstar := by
  cases component with
  | literal text => cases mode <;> cases same
  | compound parts => cases same
  | globstar => rfl

end Component

namespace Tree

variable {tree : Tree} {branch : Branch} {base : Text}

theorem Shape.entry_of_prefix (shape : tree.Shape) {front back : List Text}
    (named : ∀ name ∈ back, IsName name) (entry : tree.HasEntry (absolute (front ++ back))) :
    tree.HasEntry (absolute front) := by
  induction back using List.reverseRecOn with
  | nil => simpa using entry
  | append_singleton back name ih =>
      rw [← List.append_assoc] at entry
      apply ih fun other member => named other (List.mem_append_left [name] member)
      exact shape.above _ entry _ (parent_absolute (front ++ back) (named name (by simp)))

/-- Above an entry, apart from itself, everything is a directory. -/
theorem Shape.directory_of_prefix (shape : tree.Shape) {front back : List Text}
    (named : ∀ name ∈ back, IsName name) (nonempty : back ≠ [])
    (entry : tree.HasEntry (absolute (front ++ back))) :
    tree.hasDirectory (absolute front) = true := by
  cases back with
  | nil => exact absurd rfl nonempty
  | cons name back =>
      have split : front ++ name :: back = (front ++ [name]) ++ back := by simp
      rw [split] at entry
      have next := shape.entry_of_prefix
        (fun other member => named other (List.mem_cons_of_mem name member)) entry
      exact has_directory_of_child next (parent_absolute front (named name List.mem_cons_self))

/-- A branch amid the path of an entry: the names in front are gone through, those behind ahead. -/
structure Approach (tree : Tree) (branch : Branch) (base : Text) (before rest : List Component)
    (front back : List Text) : Prop where
  components : branch.glob.components = before ++ rest
  named : ∀ name ∈ front ++ back, IsName name
  entry : tree.HasEntry (absolute (front ++ back))
  reaches : tree.Reaches branch base ⟨absolute front, before.length⟩

namespace Approach

variable {before rest : List Component} {component : Component} {front back : List Text}
  {name : Text}

theorem selects (approach : Approach tree branch base before (component :: rest) front back) :
    branch.selectors[before.length]? = some (component.selector branch.mode rest.isEmpty) := by
  rw [Branch.selectors, approach.components]
  exact Component.selectors_append branch.mode before component rest

theorem length_selectors
    (approach : Approach tree branch base before (component :: rest) front back) :
    branch.selectors.length = before.length + 1 + rest.length := by
  rw [Branch.selectors, Component.length_selectors, approach.components, List.length_append,
    List.length_cons]
  omega

theorem inner (approach : Approach tree branch base before (component :: rest) front back)
    (more : rest ≠ []) : before.length + 1 < branch.selectors.length := by
  have length := approach.length_selectors
  have positive := List.length_pos_iff.mpr more
  omega

theorem last (approach : Approach tree branch base before [component] front back) :
    before.length + 1 = branch.selectors.length := by
  have length := approach.length_selectors
  rw [List.length_nil] at length
  omega

theorem back_named (approach : Approach tree branch base before rest front back) :
    ∀ name ∈ back, IsName name := fun name member =>
  approach.named name (List.mem_append_right front member)

theorem beyond (approach : Approach tree branch base before rest front (name :: back)) :
    (∀ other ∈ back, IsName other) ∧ tree.HasEntry (absolute (front ++ [name] ++ back)) := by
  constructor
  · intro other member
    exact approach.back_named other (List.mem_cons_of_mem name member)
  · rw [← List.append_cons]
    exact approach.entry

theorem child (approach : Approach tree branch base before rest front (name :: back))
    (shape : tree.Shape) : tree.IsChild (absolute front) (absolute (front ++ [name])) := by
  obtain ⟨named, entry⟩ := approach.beyond
  exact ⟨shape.entry_of_prefix named entry,
    parent_absolute front (approach.back_named name List.mem_cons_self)⟩

theorem directory (approach : Approach tree branch base before rest front (name :: back))
    (shape : tree.Shape) (further : back ≠ []) :
    tree.hasDirectory (absolute (front ++ [name])) = true := by
  obtain ⟨named, entry⟩ := approach.beyond
  exact shape.directory_of_prefix named further entry

theorem join_next (approach : Approach tree branch base before rest front (name :: back)) :
    join (absolute front) name = absolute (front ++ [name]) :=
  join_absolute (fun other member => approach.named other (List.mem_append_left _ member))
    (approach.back_named name List.mem_cons_self).slash_not_mem

theorem file_name_next (approach : Approach tree branch base before rest front (name :: back)) :
    fileName (absolute (front ++ [name])) = name :=
  file_name_absolute front (approach.back_named name List.mem_cons_self).slash_not_mem

theorem enter (approach : Approach tree branch base before (component :: rest) front (name :: back))
    (shape : tree.Shape) (readable : tree.unreadable = []) (more : rest ≠ []) (further : back ≠ [])
    (admits : (component.selector branch.mode rest.isEmpty).Admits name) :
    Approach tree branch base (before ++ [component]) rest (front ++ [name]) back := by
  have directory := approach.directory shape further
  have leads : tree.Leads branch ⟨absolute front, before.length⟩
      ⟨absolute (front ++ [name]), before.length + 1⟩ := by
    have selects := approach.selects
    cases selector : component.selector branch.mode rest.isEmpty with
    | exactly wanted =>
        rw [selector] at selects admits
        rw [← approach.join_next, ← admits]
        apply Leads.literal selects (approach.inner more)
        rw [admits, approach.join_next]
        exact directory
    | named regex =>
        rw [selector] at selects admits
        apply Leads.named selects (approach.inner more) (by simp [readable]) (approach.child shape)
          directory
        rw [approach.file_name_next]
        exact admits
    | everywhere =>
        rw [selector] at admits
        exact absurd admits id
  have reaches : tree.Reaches branch base ⟨absolute (front ++ [name]), before.length + 1⟩ :=
    approach.reaches.tail leads
  constructor
  · rw [approach.components, List.append_cons]
  · simpa using approach.named
  · simpa using approach.entry
  · simpa using reaches

theorem descend
    (approach : Approach tree branch base before (.globstar :: rest) front (name :: back))
    (shape : tree.Shape) (readable : tree.unreadable = []) (further : back ≠ []) :
    Approach tree branch base before (.globstar :: rest) (front ++ [name]) back := by
  have leads : tree.Leads branch ⟨absolute front, before.length⟩
      ⟨absolute (front ++ [name]), before.length⟩ :=
    .below approach.selects (by simp [readable]) (approach.child shape)
      (approach.directory shape further)
  constructor
  · exact approach.components
  · simpa using approach.named
  · simpa using approach.entry
  · exact approach.reaches.tail leads

theorem onward (approach : Approach tree branch base before (.globstar :: rest) front back)
    (readable : tree.unreadable = []) (more : rest ≠ []) :
    Approach tree branch base (before ++ [.globstar]) rest front back := by
  have leads :
      tree.Leads branch ⟨absolute front, before.length⟩ ⟨absolute front, before.length + 1⟩ :=
    .onward approach.selects (approach.inner more) (by simp [readable])
  have reaches : tree.Reaches branch base ⟨absolute front, before.length + 1⟩ :=
    approach.reaches.tail leads
  constructor
  · rw [approach.components, List.append_cons]
  · exact approach.named
  · exact approach.entry
  · simpa using reaches

theorem arrive (approach : Approach tree branch base before [component] front [name])
    (shape : tree.Shape) (readable : tree.unreadable = [])
    (admits : (component.selector branch.mode true).Admits name) :
    ∃ stop,
      tree.Reaches branch base stop ∧ tree.Selects branch stop (absolute (front ++ [name])) := by
  refine ⟨_, approach.reaches, ?_⟩
  have selects : branch.selectors[before.length]? = some (component.selector branch.mode true) :=
    approach.selects
  cases selector : component.selector branch.mode true with
  | exactly wanted =>
      rw [selector] at selects admits
      rw [← approach.join_next, ← admits]
      apply Selects.literal selects approach.last
      rw [admits, approach.join_next]
      exact (shape.has_iff _).mpr approach.entry
  | named regex =>
      rw [selector] at selects admits
      apply Selects.named selects approach.last (by simp [readable]) (approach.child shape)
      rw [approach.file_name_next]
      exact admits
  | everywhere =>
      rw [selector] at admits
      exact absurd admits id

/-- A last `**` selects every entry below. -/
theorem arrive_below (approach : Approach tree branch base before [.globstar] front back)
    (shape : tree.Shape) (readable : tree.unreadable = []) (nonempty : back ≠ []) :
    ∃ stop,
      tree.Reaches branch base stop ∧ tree.Selects branch stop (absolute (front ++ back)) := by
  induction back generalizing front with
  | nil => exact absurd rfl nonempty
  | cons name back ih =>
      by_cases further : back = []
      · subst further
        exact ⟨_, approach.reaches, .everywhere approach.selects approach.last (by simp [readable])
          (approach.child shape)⟩
      · rw [List.append_cons]
        exact ih (approach.descend shape readable further) further

/-- A component for one segment is the last one exactly when its segment is. -/
theorem arrive_through {segments : List Text}
    (approach : Approach tree branch base before (component :: rest) front (name :: segments))
    (shape : tree.Shape) (readable : tree.unreadable = [])
    (admits : (component.selector branch.mode rest.isEmpty).Admits name)
    (more : Glob.Accepts branch.mode rest segments)
    (others : Approach tree branch base (before ++ [component]) rest (front ++ [name]) segments →
      segments ≠ [] → ∃ stop, tree.Reaches branch base stop ∧
        tree.Selects branch stop (absolute (front ++ [name] ++ segments))) :
    ∃ stop, tree.Reaches branch base stop ∧
      tree.Selects branch stop (absolute (front ++ name :: segments)) := by
  by_cases further : segments = []
  · subst further
    have none : rest = [] := by
      by_contra others
      exact Glob.not_accepts_nil others more
    subst none
    exact approach.arrive shape readable admits
  · have some : rest ≠ [] := by
      intro none
      subst none
      exact further ((Glob.accepts_nothing_iff segments).mp more)
    rw [List.append_cons]
    exact others (approach.enter shape readable some further admits) further

/-- What the remaining components accept is approached to the end. -/
theorem arrive_of_accepts {components : List Component} {segments : List Text}
    (accepts : Glob.Accepts branch.mode components segments)
    (proper : ∀ component ∈ components, component.Proper)
    (approach : Approach tree branch base before components front segments)
    (shape : tree.Shape) (readable : tree.unreadable = []) (nonempty : segments ≠ []) :
    ∃ stop, tree.Reaches branch base stop ∧
      tree.Selects branch stop (absolute (front ++ segments)) := by
  -- On what is accepted: the approach is kept up while components and names move to the front.
  induction accepts generalizing before front with
  | nothing => exact absurd rfl nonempty
  | @literal text segment rest segments agrees more ih =>
      have named := approach.back_named segment List.mem_cons_self
      have admits :=
        (Component.literal_admits_iff rest.isEmpty (proper _ List.mem_cons_self) named).mpr agrees
      exact approach.arrive_through shape readable admits more
        (ih fun component member => proper component (List.mem_cons_of_mem _ member))
  | @compound parts segment rest segments described more ih =>
      have named := approach.back_named segment List.mem_cons_self
      have admits :=
        (Component.compound_admits_iff rest.isEmpty (proper _ List.mem_cons_self) named).mpr
          described
      exact approach.arrive_through shape readable admits more
        (ih fun component member => proper component (List.mem_cons_of_mem _ member))
  | @skip segment rest segments inner noColon more ih =>
      have further : segments ≠ [] := by
        intro none
        subst none
        exact Glob.not_accepts_nil (List.cons_ne_nil _ _) more
      rw [List.append_cons]
      exact ih proper (approach.descend shape readable further) further
  | onward inner more ih =>
      exact ih (fun component member => proper component (List.mem_cons_of_mem _ member))
        (approach.onward readable inner) nonempty
  | last some noColon => exact approach.arrive_below shape readable some

/-- A branch that opens with `**` gets to every directory above an entry. -/
theorem descend_all {middle : List Text}
    (approach : Approach tree branch base before (.globstar :: rest) front (middle ++ back))
    (shape : tree.Shape) (readable : tree.unreadable = []) (further : back ≠ []) :
    Approach tree branch base before (.globstar :: rest) (front ++ middle) back := by
  induction middle generalizing front with
  | nil => simpa using approach
  | cons name middle ih =>
      rw [List.append_cons]
      exact ih (approach.descend shape readable (by simp [further]))

end Approach

theorem Shape.entry_of_finds {start found : Text} (shape : tree.Shape) (parsed : branch.Parsed)
    (finds : tree.Finds branch start found) : tree.HasEntry found ∧ found ≠ ['/'] := by
  have named : ∀ name, .exactly name ∈ branch.selectors → IsName name := fun _ =>
    parsed.is_name_of_exactly
  have below : ∀ {directory : Text}, parent? found = some directory → found ≠ ['/'] := by
    intro directory parent root
    rw [root] at parent
    cases parent
  obtain ⟨⟨stop, reaches, selects⟩, -⟩ := finds
  have place := shape.place_of_reaches (shape.place_base start branch) named reaches
  cases selects with
  | @literal name selects last present =>
      have named := named name (List.mem_of_getElem? selects)
      exact ⟨(shape.has_iff _).mp present, below (place.parent_join named)⟩
  | named selects last readable child fits => exact ⟨child.1, below child.2⟩
  | everywhere selects last readable child => exact ⟨child.1, below child.2⟩

/-- What a branch that is rooted or opens with `**` matches, it finds from the root on. -/
theorem Shape.finds_of_matches {found : Text} (shape : tree.Shape) (readable : tree.unreadable = [])
    (parsed : branch.Parsed)
    (opens : branch.rooted = true ∨ ∃ rest, branch.glob.components = .globstar :: rest)
    (entry : tree.HasEntry found) (notRoot : found ≠ ['/'])
    (matched : branch.matchesPath found = true) : tree.Finds branch ['/'] found := by
  have proper := parsed.proper
  have place := shape.places found entry
  refine ⟨?_, matched⟩
  rw [← place.normalize_eq] at matched
  obtain ⟨names, named, rfl⟩ := place
  have segments := segments_absolute named
  have nonempty : names ≠ [] := by
    intro none
    subst none
    exact notRoot rfl
  rw [Branch.matches_normalized_iff proper (by rwa [segments]), Glob.Describes, Glob.CutsInto,
    segments] at matched
  rw [base_root]
  have approach : Approach tree branch ['/'] [] branch.glob.components [] names :=
    ⟨rfl, named, entry, .refl⟩
  rcases matched with described | ⟨lone, -⟩
  · cases rooted : branch.glob.rooted with
    | true =>
        rw [rooted, if_pos rfl] at described
        exact approach.arrive_of_accepts described.2 proper.components shape readable nonempty
    | false =>
        rw [rooted, if_neg Bool.false_ne_true] at described
        obtain ⟨rest, components⟩ := opens.resolve_left (by simp [Branch.rooted, rooted])
        obtain ⟨suffix, ⟨front, rfl⟩, accepts⟩ := described
        have further : suffix ≠ [] := by
          intro none
          subst none
          exact Glob.not_accepts_nil proper.nonempty accepts
        rw [components] at approach accepts
        have above := approach.descend_all shape readable further
        exact above.arrive_of_accepts accepts
          (components ▸ proper.components) shape readable further
  · rw [lone] at approach
    exact approach.arrive_below shape readable nonempty

/--
Walking from the root agrees with matching every entry on its own, for each pattern whose branches
are all rooted or open with `**`: the walk comes to its end without a failure and hands out exactly
the entries other than the root that the pattern matches, each of them once.
-/
theorem walk_agrees_with_matching (paths : List Text) {pattern : Pattern} (built : pattern.Built)
    (opens : ∀ branch ∈ pattern.branches,
      branch.rooted = true ∨ ∃ rest, branch.glob.components = .globstar :: rest) :
    ∃ items last,
      Step.Drains (Walk.step (ofPaths paths).filesystem)
        (Walk.begin pattern (ofPaths paths).filesystem ['/']) items last ∧
      items.filterMap (·.1.failure?) = [] ∧ (items.filterMap (·.1.path?)).Nodup ∧
      ∀ found, found ∈ items.filterMap (·.1.path?) ↔
        (ofPaths paths).HasEntry found ∧ found ≠ ['/'] ∧ pattern.matchesPath found = true := by
  have shape := of_paths_shape paths
  have readable := of_paths_unreadable paths
  have parsed := built.proper.parsed
  obtain ⟨items, last, drains, exhausts⟩ := shape.walk_exhausts parsed ['/']
  refine ⟨items, last, drains, ?_, exhausts.distinct, ?_⟩
  · obtain ⟨failing, -, fails, count⟩ := exhausts.failures
    rw [← List.length_eq_zero_iff, count, List.length_eq_zero_iff, List.eq_nil_iff_forall_not_mem]
    intro pair member
    obtain ⟨branch, -, failsAt⟩ := (fails pair.1 pair.2).mp member
    have unreadable := failsAt.2.1
    rw [readable] at unreadable
    cases unreadable
  · intro found
    rw [exhausts.paths]
    constructor
    · intro finds
      obtain ⟨branch, member, finds⟩ := finds
      obtain ⟨entry, notRoot⟩ := shape.entry_of_finds (parsed branch member) finds
      refine ⟨entry, notRoot, ?_⟩
      rw [Pattern.matchesPath, (shape.places found entry).normalize_eq]
      exact List.any_eq_true.mpr ⟨branch, member, finds.2⟩
    · intro matched
      obtain ⟨entry, notRoot, matched⟩ := matched
      rw [Pattern.matchesPath, (shape.places found entry).normalize_eq] at matched
      obtain ⟨branch, member, matched⟩ := List.any_eq_true.mp matched
      exact ⟨branch, member, shape.finds_of_matches readable (parsed branch member)
        (opens branch member) entry notRoot matched⟩

/-- The pattern `**/b;/a/*` on a tree with a colon in a name, read without regard to case. -/
theorem walk_agrees_with_matching_colon :
    ∃ pattern,
      Pattern.compile .lenient ['*', '*', '/', 'b', ';', '/', 'a', '/', '*'] .insensitive =
        .ok pattern ∧
      ∃ items last,
        Step.Drains (Walk.step (ofPaths [['A', '/', ':', '/', 'b']]).filesystem)
          (Walk.begin pattern (ofPaths [['A', '/', ':', '/', 'b']]).filesystem ['/']) items last ∧
        items.filterMap (·.1.failure?) = [] ∧ (items.filterMap (·.1.path?)).Nodup ∧
        ∀ found, found ∈ items.filterMap (·.1.path?) ↔
          (ofPaths [['A', '/', ':', '/', 'b']]).HasEntry found ∧ found ≠ ['/'] ∧
            pattern.matchesPath found = true := by
  have compiled :
      Pattern.compile .lenient ['*', '*', '/', 'b', ';', '/', 'a', '/', '*'] .insensitive = .ok
        ⟨[⟨⟨false, [.globstar, .literal ['b']]⟩, .insensitive⟩,
          ⟨⟨true, [.literal ['a'], .compound [.star]]⟩, .insensitive⟩]⟩ := by decide +kernel
  refine ⟨_, compiled,
    walk_agrees_with_matching [['A', '/', ':', '/', 'b']] (.compiled compiled) ?_⟩
  intro branch member
  rcases List.mem_cons.mp member with rfl | other
  · exact .inr ⟨_, rfl⟩
  · rw [List.mem_singleton.mp other]
    exact .inl rfl

end Tree

end PathGlob
