import PathGlob.Proofs.Tree.Agreement
import PathGlob.Proofs.Walk.Accounts

/-!
# Directories that are not listed

A walk lists a directory only for a component that has to see what is inside: `**`, a list, a
wildcard or a literal whose case does not matter. The names between the base of the branch and the
directory are then accepted, one by one, by the components in front, and only `**` looks further
down. So no listing is made on behalf of a literal that is looked up, and a directory is listed once
for each branch and component that come to it, or twice where a last `**` also finds its entries.
-/
namespace PathGlob

set_option autoImplicit false

open PathGlob.Path

/--
Whether components that others follow accept names, each in turn. `**` takes any number of them.
-/
inductive Glob.LeadsThrough (mode : CaseMode) : List Component → List Text → Prop where
  | nothing : LeadsThrough mode [] []
  | literal {text name : Text} {rest : List Component} {names : List Text}
      (agrees : mode.Agrees text name) (more : LeadsThrough mode rest names) :
      LeadsThrough mode (.literal text :: rest) (name :: names)
  | compound {parts : List Part} {name : Text} {rest : List Component} {names : List Text}
      (described : Component.DescribeSegment mode false parts name)
      (more : LeadsThrough mode rest names) :
      LeadsThrough mode (.compound parts :: rest) (name :: names)
  | skip {name : Text} {rest : List Component} {names : List Text}
      (more : LeadsThrough mode (.globstar :: rest) names) :
      LeadsThrough mode (.globstar :: rest) (name :: names)
  | onward {rest : List Component} {names : List Text} (more : LeadsThrough mode rest names) :
      LeadsThrough mode (.globstar :: rest) names

namespace Glob.LeadsThrough

variable {mode : CaseMode}

theorem append {front back : List Component} {left right : List Text}
    (first : LeadsThrough mode front left) (second : LeadsThrough mode back right) :
    LeadsThrough mode (front ++ back) (left ++ right) := by
  induction first with
  | nothing => exact second
  | literal agrees _ ih => exact .literal agrees ih
  | compound described _ ih => exact .compound described ih
  | skip _ ih => exact .skip ih
  | onward _ ih => exact .onward ih

theorem of_globstar (mode : CaseMode) (names : List Text) :
    LeadsThrough mode [.globstar] names := by
  induction names with
  | nil => exact .onward .nothing
  | cons name names ih => exact .skip ih

theorem of_admits {component : Component} {name : Text} (proper : component.Proper)
    (named : IsName name)
    (admits : (component.selector mode false).Admits name) :
    LeadsThrough mode [component] [name] := by
  cases component with
  | literal text =>
      exact .literal ((Component.literal_admits_iff false proper named).mp admits) .nothing
  | compound parts =>
      exact .compound ((Component.compound_admits_iff false proper named).mp admits) .nothing
  | globstar => exact absurd admits id

end Glob.LeadsThrough

/--
Whether a component has to see the entries of a directory: all but literals whose case matters.
-/
def Component.Lists (mode : CaseMode) : Component → Prop
  | .literal _ => mode = .insensitive
  | .compound _ => True
  | .globstar => True

theorem Component.lists_selector_iff (component : Component) (mode : CaseMode) (isLast : Bool) :
    (component.selector mode isLast).Lists ↔ component.Lists mode := by
  cases component with
  | literal text => cases mode <;> simp [selector, Selector.Lists, Lists]
  | compound parts => rfl
  | globstar => rfl

theorem Component.Lists.ne_literal {component : Component} (lists : component.Lists .sensitive)
    (text : Text) :
    component ≠ .literal text := by
  intro same
  rw [same] at lists
  cases lists

namespace Branch

structure LooksUp (branch : Branch) : Prop where
  sensitive : branch.mode = .sensitive
  literals : ∀ component ∈ branch.glob.components, ∃ text, component = .literal text

variable {branch : Branch}

theorem component_of_selects {index : Nat} {selector : Selector}
    (selects : branch.selectors[index]? = some selector) :
    ∃ component, branch.glob.components[index]? = some component ∧
      selector = component.selector branch.mode (decide (index + 1 = branch.selectors.length)) := by
  have bound := (List.getElem?_eq_some_iff.mp selects).1
  obtain ⟨component, split, same⟩ := Component.of_selects selects
  have last : (branch.glob.components.drop (index + 1)).isEmpty =
      decide (index + 1 = branch.selectors.length) := by
    rw [selectors, Component.length_selectors] at bound ⊢
    rw [Bool.eq_iff_iff, List.isEmpty_iff, List.drop_eq_nil_iff, decide_eq_true_eq]
    omega
  refine ⟨component, ?_, last ▸ same⟩
  rw [← List.head?_drop, split]
  rfl

/--
Whether a stop is where the components before its own lead, by the names taken below a base, or
further down if its own component is `**`.
-/
structure Leading (branch : Branch) (base taken further : List Text) (stop : Stop) : Prop where
  directory : stop.directory = absolute (base ++ taken ++ further)
  named : ∀ name ∈ base ++ taken ++ further, IsName name
  through : Glob.LeadsThrough branch.mode (branch.glob.components.take stop.index) taken
  below : further = [] ∨ branch.glob.components[stop.index]? = some .globstar

namespace Leading

variable {base taken further : List Text} {stop : Stop} {component : Component} {name : Text}

theorem begin (named : ∀ name ∈ base, IsName name) :
    branch.Leading base [] [] ⟨absolute base, 0⟩ where
  directory := by simp
  named := by simpa using named
  through := .nothing
  below := .inl rfl

theorem next_named (leading : branch.Leading base taken further stop) (isName : IsName name) :
    ∀ other ∈ base ++ taken ++ further ++ [name], IsName other := by
  rw [List.forall_mem_append]
  exact ⟨leading.named, by simpa using isName⟩

theorem through_next (leading : branch.Leading base taken further stop)
    (here : branch.glob.components[stop.index]? = some component) {more : List Text}
    (leads : Glob.LeadsThrough branch.mode [component] more) :
    Glob.LeadsThrough branch.mode (branch.glob.components.take (stop.index + 1))
      (taken ++ more) := by
  rw [List.take_add_one, here]
  exact leading.through.append leads

theorem enter (leading : branch.Leading base taken further stop) (parsed : branch.Parsed)
    (here : branch.glob.components[stop.index]? = some component) (isName : IsName name)
    (admits : (component.selector branch.mode false).Admits name) :
    branch.Leading base (taken ++ [name]) []
      ⟨absolute (base ++ taken ++ further ++ [name]), stop.index + 1⟩ := by
  have proper := parsed.proper.components component (List.mem_of_getElem? here)
  have other : component ≠ .globstar := by
    intro globstar
    rw [globstar] at admits
    exact admits
  have arrived : further = [] := leading.below.resolve_right (by simp [here, other])
  have named := leading.next_named isName
  subst arrived
  constructor
  · simp
  · simpa using named
  · exact leading.through_next here (.of_admits proper isName admits)
  · exact .inl rfl

theorem descend (leading : branch.Leading base taken further stop)
    (here : branch.glob.components[stop.index]? = some .globstar) (isName : IsName name) :
    branch.Leading base taken (further ++ [name])
      ⟨absolute (base ++ taken ++ further ++ [name]), stop.index⟩ where
  directory := by rw [List.append_assoc (base ++ taken)]
  named := by
    rw [← List.append_assoc]
    exact leading.next_named isName
  through := leading.through
  below := .inr here

theorem onward (leading : branch.Leading base taken further stop)
    (here : branch.glob.components[stop.index]? = some .globstar) :
    branch.Leading base (taken ++ further) [] ⟨stop.directory, stop.index + 1⟩ where
  directory := by simpa using leading.directory
  named := by simpa using leading.named
  through := leading.through_next here (.of_globstar _ further)
  below := .inl rfl

end Leading

end Branch

namespace Tree

variable {tree : Tree} {branch : Branch} {base taken further : List Text} {stop next : Stop}

theorem Shape.leading_of_leads (shape : tree.Shape) (parsed : branch.Parsed)
    (leading : branch.Leading base taken further stop) (leads : tree.Leads branch stop next) :
    ∃ taken further, branch.Leading base taken further next := by
  cases leads with
  | @literal name selects inner directory =>
      have isName := parsed.is_name_of_exactly (List.mem_of_getElem? selects)
      obtain ⟨component, here, same⟩ := Branch.component_of_selects selects
      rw [decide_eq_false (Nat.ne_of_lt inner)] at same
      rw [leading.directory, join_absolute leading.named isName.slash_not_mem]
      exact ⟨_, _, leading.enter parsed here isName (same ▸ rfl)⟩
  | named selects inner readable isChild directory fits =>
      obtain ⟨component, here, same⟩ := Branch.component_of_selects selects
      rw [decide_eq_false (Nat.ne_of_lt inner)] at same
      rw [leading.directory] at isChild
      obtain ⟨name, isName, rfl⟩ := shape.name_of_child leading.named isChild
      rw [file_name_absolute _ isName.slash_not_mem] at fits
      exact ⟨_, _, leading.enter parsed here isName (same ▸ fits)⟩
  | below selects readable isChild directory =>
      obtain ⟨component, here, same⟩ := Branch.component_of_selects selects
      obtain rfl := Component.selector_everywhere same.symm
      rw [leading.directory] at isChild
      obtain ⟨name, isName, rfl⟩ := shape.name_of_child leading.named isChild
      exact ⟨_, _, leading.descend here isName⟩
  | onward selects inner readable =>
      obtain ⟨component, here, same⟩ := Branch.component_of_selects selects
      obtain rfl := Component.selector_everywhere same.symm
      exact ⟨_, _, leading.onward here⟩

/-- Every stop that is reached is one that the components before its own lead to. -/
theorem Shape.leading_of_reaches (shape : tree.Shape) (parsed : branch.Parsed)
    (named : ∀ name ∈ base, IsName name) (reaches : tree.Reaches branch (absolute base) stop) :
    ∃ taken further, branch.Leading base taken further stop := by
  induction reaches with
  | refl => exact ⟨[], [], .begin named⟩
  | tail _ leads ih =>
      obtain ⟨taken, further, leading⟩ := ih
      exact shape.leading_of_leads parsed leading leads

theorem listing_read (keep : Text → Bool) {directory : Text} (place : IsPlace directory)
    (go : List Text → Expansion) :
    (Expansion.listing (tree.list keep directory) go).read =
      directory ::
        (if directory ∈ tree.unreadable then [] else (go (tree.below keep directory)).read) := by
  rw [Expansion.listing, list, Tree.resolve, place.resolve_eq, below]
  by_cases unreadable : directory ∈ tree.unreadable <;> simp [unreadable]

/--
What is read for a stop: nothing, or its directory where the selector lists, at a last `**` up to
twice.
-/
theorem read_cases (place : IsPlace stop.directory) :
    (branch.expand tree.filesystem stop).read = [] ∨
      ∃ selector, branch.selectors[stop.index]? = some selector ∧ selector.Lists ∧
        ((branch.expand tree.filesystem stop).read = [stop.directory] ∨
          (branch.expand tree.filesystem stop).read = [stop.directory, stop.directory] ∧
            selector = .everywhere ∧ stop.index + 1 = branch.selectors.length) := by
  have alone :
      ∀ (keep : Text → Bool) (go : List Text → Expansion), (∀ paths, (go paths).read = []) →
      (Expansion.listing (tree.list keep stop.directory) go).read = [stop.directory] := by
    intro keep go nothing
    rw [listing_read keep place, nothing, ite_self]
  cases selects : branch.selectors[stop.index]? with
  | none => simp [Branch.expand, selects]
  | some selector =>
      rcases Branch.inner_or_last selects with inner | last
      · rw [Branch.expand_of_inner selects inner]
        cases selector with
        | exactly name => exact .inl rfl
        | named regex => exact .inr ⟨_, rfl, trivial, .inl (alone tree.hasDirectory _ fun _ => rfl)⟩
        | everywhere => exact .inr ⟨_, rfl, trivial, .inl (alone tree.hasDirectory _ fun _ => rfl)⟩
      · rw [Branch.expand_of_last selects last]
        cases selector with
        | exactly name => exact .inl rfl
        | named regex => exact .inr ⟨_, rfl, trivial, .inl (alone (fun _ => true) _ fun _ => rfl)⟩
        | everywhere =>
            refine .inr ⟨_, rfl, trivial, ?_⟩
            have twice : (Selector.everywhere.expandLast tree.filesystem stop).read =
                stop.directory ::
                  if stop.directory ∈ tree.unreadable then [] else [stop.directory] := by
              refine (listing_read (fun _ => true) place _).trans ?_
              exact congrArg
                (fun read =>
                  stop.directory :: if stop.directory ∈ tree.unreadable then [] else read)
                (alone tree.hasDirectory _ fun _ => rfl)
            rw [twice]
            by_cases unreadable : stop.directory ∈ tree.unreadable
            · rw [if_pos unreadable]
              exact .inl rfl
            · rw [if_neg unreadable]
              exact .inr ⟨rfl, rfl, last⟩

/--
Whether an account is for a directory that a component of a branch has to see, and that the
components before it lead to. It is read once, or twice for a last `**`.
-/
structure Justified (tree : Tree) (pattern : Pattern) (start : Text) (account : Nat × Stop)
    (branch : Branch) (component : Component) : Prop where
  numbered : pattern.branches[account.1]? = some branch
  here : branch.glob.components[account.2.index]? = some component
  lists : component.Lists branch.mode
  leading : ∃ base taken further, tree.base start branch = absolute base ∧
    branch.Leading base taken further account.2
  read : pattern.readFor tree.filesystem account = [account.2.directory] ∨
    pattern.readFor tree.filesystem account = [account.2.directory, account.2.directory] ∧
      component = .globstar ∧ account.2.index + 1 = branch.glob.components.length

theorem Justified.not_looks_up {pattern : Pattern} {start : Text} {account : Nat × Stop}
    {component : Component} (justified : tree.Justified pattern start account branch component) :
    ¬branch.LooksUp := by
  intro looksUp
  obtain ⟨text, same⟩ := looksUp.literals component (List.mem_of_getElem? justified.here)
  have lists := justified.lists
  rw [looksUp.sensitive] at lists
  exact lists.ne_literal text same

/-- Where something is read for a stop that is reached, there is a reason for it. -/
theorem Shape.justified_of_reaches (shape : tree.Shape) {pattern : Pattern} {start : Text}
    {account : Nat × Stop} (parsed : branch.Parsed)
    (numbered : pattern.branches[account.1]? = some branch)
    (reaches : branch.Reaches tree.filesystem (Walk.startIn tree.filesystem start) account.2)
    (some : pattern.readFor tree.filesystem account ≠ []) :
    ∃ component, tree.Justified pattern start account branch component := by
  have named : ∀ name, .exactly name ∈ branch.selectors → IsName name :=
    fun _ => parsed.is_name_of_exactly
  have place : IsPlace (tree.base start branch) := shape.place_base start branch
  have reached : tree.Reaches branch (tree.base start branch) account.2 :=
    (reaches_iff shape place named).mp reaches
  have read :
      pattern.readFor tree.filesystem account = (branch.expand tree.filesystem account.2).read := by
    rw [Pattern.readFor, numbered]
  have stopPlace := shape.place_of_reaches place named reached
  obtain ⟨base, baseNamed, same⟩ := place
  rw [same] at reached
  obtain ⟨taken, further, leading⟩ := shape.leading_of_reaches parsed baseNamed reached
  rw [read] at some
  obtain ⟨selector, selects, lists, times⟩ := (read_cases stopPlace).resolve_left some
  obtain ⟨component, here, rfl⟩ := Branch.component_of_selects selects
  have seen := (component.lists_selector_iff _ _).mp lists
  refine ⟨component, numbered, here, seen, ⟨base, taken, further, same, leading⟩, ?_⟩
  rw [read]
  rcases times with once | ⟨twice, everywhere, last⟩
  · exact .inl once
  · rw [Branch.selectors, Component.length_selectors] at last
    exact .inr ⟨twice, Component.selector_everywhere everywhere, last⟩

theorem flat_map_read (filesystem : Filesystem) (pattern : Pattern) (accounts : List (Nat × Stop)) :
    (accounts.filter fun account => pattern.readFor filesystem account ≠ []).flatMap
      (pattern.readFor filesystem) = accounts.flatMap (pattern.readFor filesystem) := by
  have kept := List.flatten_filter_ne_nil (L := accounts.map (pattern.readFor filesystem))
  rw [List.filter_map] at kept
  exact kept

/--
Whenever one looks at a walk through a tree built from paths, all that it has listed goes on
accounts of its own, each for a branch, a component and a directory, and each is justified. On
behalf of literals whose case matters nothing is listed, so a branch made of them has no account.
-/
theorem listings_are_justified (paths unreadable : List Text) {pattern : Pattern}
    (built : pattern.Built) (start : Text) {items : List (Finding × Walk)} {last : Walk}
    (runs : Step.Runs (Walk.step { ofPaths paths with unreadable }.filesystem)
      (Walk.begin pattern { ofPaths paths with unreadable }.filesystem start) items last) :
    (∃ accounts : List (Nat × Stop), accounts.Nodup ∧
      last.read = accounts.flatMap (pattern.readFor { ofPaths paths with unreadable }.filesystem) ∧
      ∀ account ∈ accounts, ∃ branch component,
        { ofPaths paths with unreadable }.Justified pattern start account branch component ∧
        (branch.mode = .sensitive → ∀ text, component ≠ .literal text) ∧ ¬branch.LooksUp) ∧
    ((∀ branch ∈ pattern.branches, branch.LooksUp) → last.read = []) := by
  have shape := (of_paths_shape paths).with_unreadable unreadable
  obtain ⟨accounts, distinct, reached, read⟩ := Walk.read_accounted runs
  have justified : ∀ account ∈ accounts,
      pattern.readFor { ofPaths paths with unreadable }.filesystem account ≠ [] →
        ∃ branch component,
          { ofPaths paths with unreadable }.Justified pattern start account branch component := by
    intro account member some
    obtain ⟨branch, numbered, reaches⟩ := reached account member
    have parsed := built.proper.parsed branch (List.mem_of_getElem? numbered)
    exact ⟨branch, shape.justified_of_reaches parsed numbered reaches some⟩
  constructor
  · refine ⟨accounts.filter fun account =>
      pattern.readFor { ofPaths paths with unreadable }.filesystem account ≠ [],
      distinct.filter _, by rw [flat_map_read, read], ?_⟩
    intro account member
    obtain ⟨among, some⟩ := List.mem_filter.mp member
    obtain ⟨branch, component, why⟩ := justified account among (of_decide_eq_true some)
    exact ⟨branch, component, why, fun sensitive => (sensitive ▸ why.lists).ne_literal,
      why.not_looks_up⟩
  · intro looksUp
    rw [read, List.flatMap_eq_nil_iff]
    intro account member
    by_contra some
    obtain ⟨branch, component, why⟩ := justified account member some
    exact why.not_looks_up (looksUp branch (List.mem_of_getElem? why.numbered))

/--
The pattern `**;/a/*` on a tree with the unreadable directory `/a`. The root is listed twice for the
last `**`, and `/a` once for each branch, in vain.
-/
theorem listings_are_justified_unreadable :
    ∃ pattern items last,
      Pattern.compile .lenient ['*', '*', ';', '/', 'a', '/', '*'] .sensitive = .ok pattern ∧
      Step.Runs
        (Walk.step { ofPaths [['/', 'a', '/', 'b']] with unreadable := [['/', 'a']] }.filesystem)
        (Walk.begin pattern
          { ofPaths [['/', 'a', '/', 'b']] with unreadable := [['/', 'a']] }.filesystem [])
            items last ∧
      last.read = [['/'], ['/'], ['/', 'a'], ['/', 'a']] ∧
      ∃ accounts : List (Nat × Stop), accounts.Nodup ∧
        last.read = accounts.flatMap (pattern.readFor
          { ofPaths [['/', 'a', '/', 'b']] with unreadable := [['/', 'a']] }.filesystem) ∧
        ∀ account ∈ accounts, ∃ branch component,
          { ofPaths [['/', 'a', '/', 'b']] with unreadable := [['/', 'a']] }.Justified
            pattern [] account branch component := by
  have compiled : Pattern.compile .lenient ['*', '*', ';', '/', 'a', '/', '*'] .sensitive = .ok
      ⟨[⟨⟨false, [.globstar]⟩, .sensitive⟩,
        ⟨⟨true, [.literal ['a'], .compound [.star]]⟩, .sensitive⟩]⟩ := by decide +kernel
  have traversed : (Pattern.traverse
      { ofPaths [['/', 'a', '/', 'b']] with unreadable := [['/', 'a']] }.filesystem
      ⟨[⟨⟨false, [.globstar]⟩, .sensitive⟩,
        ⟨⟨true, [.literal ['a'], .compound [.star]]⟩, .sensitive⟩]⟩
      [] 3).map Record.read = some [['/'], ['/'], ['/', 'a'], ['/', 'a']] := by decide +kernel
  obtain ⟨record, traversed, read⟩ := Option.map_eq_some_iff.mp traversed
  obtain ⟨items, last, drains, -, same⟩ := Walk.drains_of_traverse traversed
  obtain ⟨accounts, distinct, all, justified⟩ :=
    (listings_are_justified [['/', 'a', '/', 'b']] [['/', 'a']] (.compiled compiled)
      [] drains.runs.1).1
  refine ⟨_, items, last, compiled, drains.runs.1, same.trans read, accounts, distinct, all, ?_⟩
  intro account member
  obtain ⟨branch, component, why, -⟩ := justified account member
  exact ⟨branch, component, why⟩

end Tree

end PathGlob
