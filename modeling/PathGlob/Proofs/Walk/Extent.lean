import Mathlib.Data.List.Nodup
import PathGlob.Proofs.Walk.Coverage
import PathGlob.Proofs.Walk.Refinement
import PathGlob.Tree

/-!
# Walks through finite trees come to an end

A territory is a finite list of directories that a walk cannot leave, by a listing or by a name that
is looked up. Inside it there are only so many stops, each call of the traversal makes a new one
before it calls again, and so a depth of one more than the number of stops is enough. With that, a
walk through a finite tree is shown to be the traversal in full.
-/
namespace PathGlob

set_option autoImplicit false

/-- A finite list of directories that a walk of a pattern from a path stays inside. -/
structure Filesystem.Territory (filesystem : Filesystem) (pattern : Pattern) (path : Text)
    (inside : List Text) : Prop where
  bases : ∀ branch ∈ pattern.branches,
    branch.base filesystem (Walk.startIn filesystem path) ∈ inside
  listed : ∀ directory ∈ inside, ∀ directories,
    (filesystem.directories directory).outcome = .ok directories → directories ⊆ inside
  lookedUp : ∀ branch ∈ pattern.branches, ∀ name, .exactly name ∈ branch.selectors →
    ∀ directory ∈ inside, filesystem.isDirectory (Path.join directory name) = true →
      Path.join directory name ∈ inside

/--
Finitely many directories, with the places where branches start, are a territory of every walk.
-/
theorem Filesystem.territory_of_directories {filesystem : Filesystem} {directories : List Text}
    (only : ∀ path, filesystem.isDirectory path = true → path ∈ directories)
    (listed : ∀ directory paths, (filesystem.directories directory).outcome = .ok paths →
      paths ⊆ directories)
    (pattern : Pattern) (start : Text) :
    filesystem.Territory pattern start
      (Walk.startIn filesystem start :: Path.normalize filesystem.root :: directories) where
  bases := by
    intro branch _
    rw [Branch.base]
    split
    · exact List.mem_cons_of_mem _ List.mem_cons_self
    · exact List.mem_cons_self
  listed := by
    intro directory _ paths answered child member
    exact List.mem_cons_of_mem _ (List.mem_cons_of_mem _ (listed directory paths answered member))
  lookedUp := by
    intro branch _ name _ directory _ isDirectory
    exact List.mem_cons_of_mem _ (List.mem_cons_of_mem _ (only _ isDirectory))

namespace Branch

variable {filesystem : Filesystem} {branch : Branch}

theorem expand_of_inner {stop : Stop} {selector : Selector}
    (selects : branch.selectors[stop.index]? = some selector)
    (inner : stop.index + 1 < branch.selectors.length) :
    branch.expand filesystem stop = selector.expandInner filesystem stop := by
  rw [expand, selects]
  exact if_neg (Nat.ne_of_lt inner)

theorem expand_of_last {stop : Stop} {selector : Selector}
    (selects : branch.selectors[stop.index]? = some selector)
    (last : stop.index + 1 = branch.selectors.length) :
    branch.expand filesystem stop = selector.expandLast filesystem stop := by
  rw [expand, selects]
  exact if_pos last

theorem inner_or_last {stop : Stop} {selector : Selector}
    (selects : branch.selectors[stop.index]? = some selector) :
    stop.index + 1 < branch.selectors.length ∨ stop.index + 1 = branch.selectors.length := by
  have bound := (List.getElem?_eq_some_iff.mp selects).1
  omega

inductive LeadsBy (filesystem : Filesystem) (branch : Branch) (stop : Stop) : Stop → Prop where
  | literal {name : Text} (selects : branch.selectors[stop.index]? = some (.exactly name))
      (inner : stop.index + 1 < branch.selectors.length)
      (directory : filesystem.isDirectory (Path.join stop.directory name) = true) :
      LeadsBy filesystem branch stop ⟨Path.join stop.directory name, stop.index + 1⟩
  | named {regex : Regex} {directories : List Text} {child : Text}
      (selects : branch.selectors[stop.index]? = some (.named regex))
      (inner : stop.index + 1 < branch.selectors.length)
      (listed : (filesystem.directories stop.directory).outcome = .ok directories)
      (among : child ∈ directories) (fits : regex.found (Path.fileName child) = true) :
      LeadsBy filesystem branch stop ⟨child, stop.index + 1⟩
  | below {directories : List Text} {child : Text}
      (selects : branch.selectors[stop.index]? = some .everywhere)
      (opened : stop.index + 1 = branch.selectors.length →
        ∃ paths, (filesystem.entries stop.directory).outcome = .ok paths)
      (listed : (filesystem.directories stop.directory).outcome = .ok directories)
      (among : child ∈ directories) : LeadsBy filesystem branch stop ⟨child, stop.index⟩
  | onward {directories : List Text} (selects : branch.selectors[stop.index]? = some .everywhere)
      (inner : stop.index + 1 < branch.selectors.length)
      (listed : (filesystem.directories stop.directory).outcome = .ok directories) :
      LeadsBy filesystem branch stop ⟨stop.directory, stop.index + 1⟩

theorem leads_by {stop next : Stop} (leads : branch.Leads filesystem stop next) :
    branch.LeadsBy filesystem stop next := by
  rw [Leads] at leads
  cases selects : branch.selectors[stop.index]? with
  | none => simp [expand, selects] at leads
  | some selector =>
      rcases inner_or_last selects with inner | last
      · rw [expand_of_inner selects inner] at leads
        cases selector with
        | exactly name =>
            simp only [Selector.expandInner] at leads
            split at leads
            · rename_i directory
              rw [List.mem_singleton] at leads
              subst leads
              exact .literal selects inner directory
            · simp at leads
        | named regex =>
            rw [Selector.expandInner, Expansion.mem_next_listing_iff] at leads
            obtain ⟨directories, listed, member⟩ := leads
            obtain ⟨child, fitting, rfl⟩ := List.mem_map.mp member
            obtain ⟨among, fits⟩ := List.mem_filter.mp fitting
            exact .named selects inner listed among fits
        | everywhere =>
            rw [Selector.expandInner, Expansion.mem_next_listing_iff] at leads
            obtain ⟨directories, listed, member⟩ := leads
            rcases List.mem_cons.mp member with rfl | inside
            · exact .onward selects inner listed
            · obtain ⟨child, among, rfl⟩ := List.mem_map.mp inside
              exact .below selects (fun last => absurd last (Nat.ne_of_lt inner)) listed among
      · rw [expand_of_last selects last] at leads
        cases selector with
        | exactly name => simp [Selector.expandLast] at leads
        | named regex => simp [Selector.expandLast, Expansion.mem_next_listing_iff] at leads
        | everywhere =>
            simp only [Selector.expandLast, Expansion.mem_next_listing_iff] at leads
            obtain ⟨paths, opened, directories, listed, member⟩ := leads
            obtain ⟨child, among, rfl⟩ := List.mem_map.mp member
            exact .below selects (fun _ => ⟨paths, opened⟩) listed among

theorem leads_of_by {stop next : Stop} (leads : branch.LeadsBy filesystem stop next) :
    branch.Leads filesystem stop next := by
  rw [Leads]
  cases leads with
  | literal selects inner directory =>
      rw [expand_of_inner selects inner, Selector.expandInner]
      simp [directory]
  | named selects inner listed among fits =>
      rw [expand_of_inner selects inner, Selector.expandInner, Expansion.mem_next_listing_iff]
      exact ⟨_, listed, List.mem_map_of_mem (List.mem_filter.mpr ⟨among, fits⟩)⟩
  | below selects opened listed among =>
      rcases inner_or_last selects with inner | last
      · rw [expand_of_inner selects inner, Selector.expandInner, Expansion.mem_next_listing_iff]
        exact ⟨_, listed, List.mem_cons_of_mem _ (List.mem_map_of_mem among)⟩
      · obtain ⟨paths, opens⟩ := opened last
        simp only [expand_of_last selects last, Selector.expandLast, Expansion.mem_next_listing_iff]
        exact ⟨paths, opens, _, listed, List.mem_map_of_mem among⟩
  | onward selects inner listed =>
      rw [expand_of_inner selects inner, Selector.expandInner, Expansion.mem_next_listing_iff]
      exact ⟨_, listed, List.mem_cons_self⟩

theorem leads_iff {stop next : Stop} :
    branch.Leads filesystem stop next ↔ branch.LeadsBy filesystem stop next :=
  ⟨leads_by, leads_of_by⟩

def stopsInside (branch : Branch) (inside : List Text) : List Stop :=
  inside.flatMap fun directory =>
    (List.range (branch.selectors.length + 1)).map fun index => ⟨directory, index⟩

theorem mem_stops_inside_iff (branch : Branch) (inside : List Text) (stop : Stop) :
    stop ∈ branch.stopsInside inside ↔
      stop.directory ∈ inside ∧ stop.index ≤ branch.selectors.length := by
  simp only [stopsInside, List.mem_flatMap, List.mem_map, List.mem_range, Nat.lt_succ_iff]
  constructor
  · intro listed
    obtain ⟨directory, member, index, bound, rfl⟩ := listed
    exact ⟨member, bound⟩
  · intro both
    exact ⟨stop.directory, both.1, stop.index, both.2, rfl⟩

theorem leads_inside {pattern : Pattern} {path : Text} {inside : List Text}
    (territory : filesystem.Territory pattern path inside) (member : branch ∈ pattern.branches)
    {stop next : Stop} (leads : branch.Leads filesystem stop next)
    (known : stop ∈ branch.stopsInside inside) : next ∈ branch.stopsInside inside := by
  rw [mem_stops_inside_iff] at known ⊢
  cases leads_by leads with
  | literal selects inner directory =>
      have selected := List.mem_of_getElem? selects
      exact ⟨territory.lookedUp branch member _ selected _ known.1 directory, Nat.le_of_lt inner⟩
  | named _ inner listed among =>
      exact ⟨territory.listed _ known.1 _ listed among, Nat.le_of_lt inner⟩
  | below _ _ listed among => exact ⟨territory.listed _ known.1 _ listed among, known.2⟩
  | onward _ inner => exact ⟨known.1, Nat.le_of_lt inner⟩

end Branch

namespace Record

variable {filesystem : Filesystem} {branch : Branch}

def unvisited (record : Record) (stops : List Stop) : Nat :=
  (stops.filter fun stop => stop ∉ record.visited).length

theorem unvisited_le {record after : Record} (stops : List Stop)
    (grown : record.visited ⊆ after.visited) : after.unvisited stops ≤ record.unvisited stops := by
  apply List.Sublist.length_le
  apply List.monotone_filter_right
  intro stop unseen
  rw [decide_eq_true_eq] at unseen ⊢
  exact fun seen => unseen (grown seen)

theorem unvisited_lt {record after : Record} {stops : List Stop} {stop : Stop}
    (grown : record.visited ⊆ after.visited) (member : stop ∈ stops)
    (fresh : stop ∉ record.visited) (made : stop ∈ after.visited) :
    after.unvisited stops < record.unvisited stops := by
  have narrowed : stops.filter (fun other => other ∉ after.visited) =
      (stops.filter fun other => other ∉ record.visited).filter
        fun other => other ∉ after.visited := by
    rw [List.filter_filter]
    apply List.filter_congr
    intro other _
    by_cases seen : other ∈ record.visited
    · simp [seen, grown seen]
    · simp [seen]
  rw [unvisited, narrowed]
  apply List.length_filter_lt_length_iff_exists.mpr
  exact ⟨stop, List.mem_filter.mpr ⟨member, by simpa using fresh⟩, by simpa using made⟩

theorem visited_subset_of_visit {depth : Nat} {record after : Record} {stop : Stop}
    (visited : record.visit filesystem branch depth stop = some after) :
    record.visited ⊆ after.visited := by
  obtain ⟨made, covers⟩ := visit_covers visited
  intro other seen
  exact (covers.mem_visited_iff other).mpr (.inr seen)

variable {pattern : Pattern} {path : Text} {inside : List Text}

theorem stops_end {depth : Nat}
    (ends : ∀ (record : Record), ∀ stop ∈ branch.stopsInside inside,
      record.unvisited (branch.stopsInside inside) < depth →
        ∃ after, record.visit filesystem branch depth stop = some after)
    {stops : List Stop} (known : stops ⊆ branch.stopsInside inside) {record : Record}
    (enough : record.unvisited (branch.stopsInside inside) < depth) :
    ∃ after, stops.foldlM (visit filesystem branch depth) record = some after := by
  apply foldl_m_ends (fun record => record.unvisited (branch.stopsInside inside) < depth) _ enough
  intro record enough stop member
  obtain ⟨after, visited⟩ := ends record stop (known member) enough
  have fewer := unvisited_le (branch.stopsInside inside) (visited_subset_of_visit visited)
  exact ⟨after, visited, by omega⟩

/-- With more depth than stops left, a visit inside a territory comes to an end. -/
theorem visit_ends (territory : filesystem.Territory pattern path inside)
    (member : branch ∈ pattern.branches) {depth : Nat} (record : Record) {stop : Stop}
    (known : stop ∈ branch.stopsInside inside)
    (enough : record.unvisited (branch.stopsInside inside) < depth) :
    ∃ after, record.visit filesystem branch depth stop = some after := by
  induction depth generalizing record stop with
  | zero => omega
  | succ depth ih =>
      rw [visit]
      split
      · exact ⟨record, rfl⟩
      · rename_i fresh
        -- The stop itself is among those still to make, so one depth less is enough behind it.
        have fewer : (record.make branch stop (branch.expand filesystem stop)).unvisited
            (branch.stopsInside inside) < record.unvisited (branch.stopsInside inside) := by
          apply unvisited_lt _ known fresh
          · simp
          · simp
        apply stops_end
        · intro record stop known enough
          exact ih record known enough
        · intro next leads
          exact Branch.leads_inside territory member leads known
        · omega

end Record

namespace Pattern

variable {filesystem : Filesystem} {pattern : Pattern} {path : Text} {inside : List Text}

def stopsInside (pattern : Pattern) (inside : List Text) : List Stop :=
  pattern.branches.flatMap fun branch => branch.stopsInside inside

theorem length_stops_inside_le {branch : Branch} (member : branch ∈ pattern.branches)
    (inside : List Text) :
    (branch.stopsInside inside).length ≤ (pattern.stopsInside inside).length := by
  apply List.Sublist.length_le
  rw [stopsInside, List.flatMap_def]
  apply List.sublist_flatten_of_mem
  exact List.mem_map_of_mem member

theorem follow_ends (territory : filesystem.Territory pattern path inside) {depth : Nat}
    (enough : (pattern.stopsInside inside).length < depth) (record : Record) {branch : Branch}
    (member : branch ∈ pattern.branches) :
    ∃ after, record.follow filesystem (Walk.startIn filesystem path) depth branch = some after := by
  have length := length_stops_inside_le member inside
  have left : ({ record with visited := [] } : Record).unvisited (branch.stopsInside inside) ≤
      (branch.stopsInside inside).length := List.length_filter_le _ _
  apply Record.visit_ends territory member
  · rw [Branch.mem_stops_inside_iff]
    exact ⟨territory.bases branch member, Nat.zero_le _⟩
  · omega

/-- A depth that is enough for a pattern is enough for any choice of its branches. -/
theorem traverse_ends_among (territory : filesystem.Territory pattern path inside) {depth : Nat}
    (enough : (pattern.stopsInside inside).length < depth) {part : Pattern}
    (among : part.branches ⊆ pattern.branches) :
    ∃ record, part.traverse filesystem path depth = some record := by
  apply foldl_m_ends (fun _ => True) _ trivial
  intro record _ branch member
  obtain ⟨after, followed⟩ := follow_ends territory enough record (among member)
  exact ⟨after, followed, trivial⟩

theorem traverse_ends (territory : filesystem.Territory pattern path inside) {depth : Nat}
    (enough : (pattern.stopsInside inside).length < depth) :
    ∃ record, pattern.traverse filesystem path depth = some record :=
  traverse_ends_among territory enough (List.Subset.refl _)

end Pattern

/--
A walk through a finite tree is the recursive traversal of its pattern: pulled to its end it hands
out the findings of the traversal, failures among them, in order; behind each it has read what the
traversal has read by then; and it ends with all that the traversal reads.
-/
theorem Walk.performs_traversal {filesystem : Filesystem} {pattern : Pattern} {path : Text}
    {inside : List Text} (territory : filesystem.Territory pattern path inside) {depth : Nat}
    (enough : (pattern.stopsInside inside).length < depth) :
    ∃ record, pattern.traverse filesystem path depth = some record ∧
      ∃ items last,
        Step.Drains (step filesystem) (begin pattern filesystem path) items last ∧
          items.map observed = record.findings ∧ last.read = record.read := by
  obtain ⟨record, traversed⟩ := Pattern.traverse_ends territory enough
  exact ⟨record, traversed, drains_of_traverse traversed⟩

def Tree.partlyUnreadable : Tree where
  entries := [⟨['/'], .directory⟩, ⟨['/', 'a'], .directory⟩, ⟨['/', 'b'], .file⟩]
  unreadable := [['/', 'a']]

theorem Walk.performs_traversal_past_unreadable :
    ∃ record, Pattern.traverse Tree.partlyUnreadable.filesystem
        ⟨[⟨⟨false, [.globstar]⟩, .sensitive⟩]⟩ ['/'] 5 = some record ∧
      ∃ items last,
        Step.Drains (step Tree.partlyUnreadable.filesystem)
          (begin ⟨[⟨⟨false, [.globstar]⟩, .sensitive⟩]⟩ Tree.partlyUnreadable.filesystem
            ['/']) items
          last ∧
        items.map observed = record.findings ∧ last.read = record.read := by
  have territory : Tree.partlyUnreadable.filesystem.Territory
      ⟨[⟨⟨false, [.globstar]⟩, .sensitive⟩]⟩ ['/'] [['/'], ['/', 'a']] := by
    constructor
    · decide
    · intro directory member directories listed
      simp only [List.mem_cons, List.not_mem_nil, or_false] at member
      rcases member with rfl | rfl
      · cases listed
        decide
      · cases listed
    · simp [Branch.selectors, Component.selectors, Component.selector]
  exact performs_traversal territory (by decide)

example : Pattern.traverse Tree.partlyUnreadable.filesystem
    ⟨[⟨⟨false, [.globstar]⟩, .sensitive⟩]⟩ ['/'] 5 = some
      { visited := [⟨['/', 'a'], 0⟩, ⟨['/'], 0⟩]
        handedOut := [['/', 'b'], ['/', 'a']]
        read := [['/'], ['/'], ['/', 'a']]
        findings := [
          (.path ['/', 'a'], [['/'], ['/']]),
          (.path ['/', 'b'], [['/'], ['/']]),
          (.failure (.unreadable ['/', 'a']), [['/'], ['/'], ['/', 'a']])] } := by decide

end PathGlob
