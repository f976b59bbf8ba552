import PathGlob.Proofs.Pattern.Prefix
import PathGlob.Proofs.Walk.Extent
import PathGlob.Proofs.Walk.Findings

/-!
# Traversals of a branch and of the branch below a directory

A case sensitive branch with the names of a directory in front looks these up one after the other,
without listing anything, and is then at the first stop of the branch itself, only with more
components behind it. From there on each stop has its counterpart, with the number of its component
shifted, and both traversals read, find and fail alike, as long as the two branches match the same
candidates.
-/
namespace PathGlob

set_option autoImplicit false

open PathGlob.Path

def Stop.shift (offset : Nat) (stop : Stop) : Stop := ⟨stop.directory, stop.index + offset⟩

theorem Stop.shift_injective (offset : Nat) : Function.Injective (Stop.shift offset) := by
  intro left right same
  obtain ⟨leftDirectory, leftIndex⟩ := left
  obtain ⟨rightDirectory, rightIndex⟩ := right
  simpa [shift] using same

namespace Expansion

def shift (offset : Nat) (expansion : Expansion) : Expansion :=
  { expansion with next := expansion.next.map (Stop.shift offset) }

theorem shift_listing (offset : Nat) (source : Listing) (go : List Text → Expansion) :
    (listing source go).shift offset = listing source fun paths => (go paths).shift offset := by
  rw [listing, listing]
  cases source.outcome <;> rfl

end Expansion

namespace Selector

variable (filesystem : Filesystem) (offset : Nat) (stop : Stop) (selector : Selector)

theorem expand_last_shift :
    selector.expandLast filesystem (stop.shift offset) =
      (selector.expandLast filesystem stop).shift offset := by
  cases selector with
  | exactly name => rfl
  | named regex =>
      rw [expandLast, expandLast, Expansion.shift_listing]
      rfl
  | everywhere =>
      rw [expandLast, expandLast, Expansion.shift_listing]
      apply congrArg (Expansion.listing _)
      funext paths
      cases listed : (filesystem.directories stop.directory).outcome <;>
        simp [Expansion.listing, Expansion.shift, Stop.shift, listed]

theorem expand_inner_shift :
    selector.expandInner filesystem (stop.shift offset) =
      (selector.expandInner filesystem stop).shift offset := by
  cases selector with
  | exactly name =>
      cases led : filesystem.isDirectory (join stop.directory name) <;>
        simp [expandInner, Expansion.shift, Stop.shift, led, Nat.add_right_comm]
  | named regex =>
      rw [expandInner, expandInner, Expansion.shift_listing]
      simp [Expansion.shift, Stop.shift, Function.comp_def, Nat.add_right_comm]
  | everywhere =>
      rw [expandInner, expandInner, Expansion.shift_listing]
      simp [Expansion.shift, Stop.shift, Function.comp_def, Nat.add_right_comm]

end Selector

namespace Branch

variable {filesystem : Filesystem} {branch : Branch} {names : List Text}

theorem base_of_relative (relative : branch.rooted = false) (start : Text) :
    branch.base filesystem start = start := by
  rw [base, relative, if_neg Bool.false_ne_true]

theorem selectors_literals (names : List Text) (components : List Component) :
    Component.selectors .sensitive (names.map .literal ++ components) =
      names.map .exactly ++ Component.selectors .sensitive components := by
  induction names with
  | nil => rfl
  | cons name names ih => exact congrArg (Selector.exactly name :: ·) ih

theorem selectors_below (sensitive : branch.mode = .sensitive) :
    (branch.below names).selectors = names.map .exactly ++ branch.selectors := by
  rw [selectors, selectors, below, sensitive, selectors_literals]

theorem expand_below (sensitive : branch.mode = .sensitive) (stop : Stop) :
    (branch.below names).expand filesystem (stop.shift names.length) =
      (branch.expand filesystem stop).shift names.length := by
  have selects : (branch.below names).selectors[(stop.shift names.length).index]? =
      branch.selectors[stop.index]? := by
    rw [selectors_below sensitive, Stop.shift, List.getElem?_append_right (by simp)]
    simp
  have last : (stop.shift names.length).index + 1 = (branch.below names).selectors.length ↔
      stop.index + 1 = branch.selectors.length := by
    simp only [selectors_below sensitive, List.length_append, List.length_map, Stop.shift]
    omega
  rw [expand, expand, selects]
  cases branch.selectors[stop.index]? with
  | none => rfl
  | some selector =>
      dsimp only
      by_cases ends : stop.index + 1 = branch.selectors.length
      · rw [if_pos (last.mpr ends), if_pos ends]
        exact Selector.expand_last_shift filesystem names.length stop selector
      · rw [if_neg (mt last.mp ends), if_neg ends]
        exact Selector.expand_inner_shift filesystem names.length stop selector

theorem expand_lead_in {front back : List Text} {name : Text} (sensitive : branch.mode = .sensitive)
    (nonempty : branch.selectors ≠ []) (split : names = front ++ name :: back)
    (named : ∀ name ∈ names, IsName name)
    (directory : filesystem.isDirectory (absolute (front ++ [name])) = true) :
    (branch.below names).expand filesystem ⟨absolute front, front.length⟩ =
      { next := [⟨absolute (front ++ [name]), front.length + 1⟩] } := by
  have selects : (branch.below names).selectors[front.length]? = some (.exactly name) := by
    rw [selectors_below sensitive, split]
    simp
  have inner : front.length + 1 < (branch.below names).selectors.length := by
    have positive := List.length_pos_iff.mpr nonempty
    rw [selectors_below sensitive, split]
    simp only [List.length_append, List.length_map, List.length_cons]
    omega
  have next : join (absolute front) name = absolute (front ++ [name]) := by
    subst split
    exact join_absolute (fun other member => named other (by simp [member]))
      (named name (by simp)).slash_not_mem
  rw [expand_of_inner selects inner, Selector.expandInner, next, if_pos directory]

/--
Whether a branch can be moved below a directory: case matters, the directory and those above it are
there, and the candidates that the branch gets at from the directory on are matched alike.
-/
structure Relocates (filesystem : Filesystem) (names : List Text) (branch : Branch) : Prop where
  sensitive : branch.mode = .sensitive
  relative : branch.rooted = false
  nonempty : branch.selectors ≠ []
  directories : ∀ front name, front ++ [name] <+: names →
    filesystem.isDirectory (absolute (front ++ [name])) = true
  matching : ∀ stop, branch.Reaches filesystem (absolute names) stop →
    ∀ path ∈ (branch.expand filesystem stop).candidates,
      (branch.below names).matchesPath path = branch.matchesPath path

end Branch

namespace Record

structure Agrees (record other : Record) : Prop where
  handedOut : other.handedOut = record.handedOut
  read : other.read = record.read
  findings : other.findings = record.findings

/-- Whether two records tell the same and have made the same stops, up to a shift. -/
structure Mirrors (offset : Nat) (record other : Record) : Prop extends Agrees record other where
  visited : ∀ stop : Stop, stop.shift offset ∈ other.visited ↔ stop ∈ record.visited

variable {filesystem : Filesystem} {branch otherBranch : Branch} {names : List Text} {offset : Nat}
  {record other : Record}

theorem Mirrors.offer (mirrors : Mirrors offset record other) {path : Text}
    (alike : otherBranch.matchesPath path = branch.matchesPath path) :
    Mirrors offset (record.offer branch path) (other.offer otherBranch path) := by
  rw [Record.offer, Record.offer, alike, mirrors.handedOut]
  split
  · constructor
    · constructor
      · rfl
      · exact mirrors.read
      · rw [mirrors.findings, mirrors.read]
    · exact mirrors.visited
  · exact mirrors

theorem Mirrors.offers (mirrors : Mirrors offset record other) {paths : List Text}
    (alike : ∀ path ∈ paths, otherBranch.matchesPath path = branch.matchesPath path) :
    Mirrors offset (paths.foldl (.offer branch) record)
      (paths.foldl (.offer otherBranch) other) := by
  induction paths generalizing record other with
  | nil => exact mirrors
  | cons path paths ih =>
      apply ih (mirrors.offer (alike path List.mem_cons_self))
      exact fun path member => alike path (List.mem_cons_of_mem _ member)

theorem Mirrors.make (mirrors : Mirrors offset record other) (stop : Stop) (expansion : Expansion)
    (alike : ∀ path ∈ expansion.candidates,
      otherBranch.matchesPath path = branch.matchesPath path) :
    Mirrors offset (record.make branch stop expansion)
      (other.make otherBranch (stop.shift offset) (expansion.shift offset)) := by
  have entered : Mirrors offset (record.enter stop expansion)
      (other.enter (stop.shift offset) (expansion.shift offset)) := by
    constructor
    · constructor
      · exact mirrors.handedOut
      · exact congrArg (· ++ expansion.read) mirrors.read
      · simp only [enter, mirrors.findings, mirrors.read]
        rfl
    · intro wanted
      simp only [enter, List.mem_cons, (Stop.shift_injective offset).eq_iff, mirrors.visited]
  exact entered.offers alike

theorem stops_mirror {depth : Nat}
    (visits : ∀ {record other after : Record} {stop : Stop}, Mirrors names.length record other →
      branch.Reaches filesystem (absolute names) stop →
      record.visit filesystem branch depth stop = some after →
        ∃ otherAfter, other.visit filesystem (branch.below names) depth (stop.shift names.length) =
          some otherAfter ∧ Mirrors names.length after otherAfter)
    {stops : List Stop} (reached : ∀ stop ∈ stops, branch.Reaches filesystem (absolute names) stop)
    {after : Record} (mirrors : Mirrors names.length record other)
    (visited : stops.foldlM (visit filesystem branch depth) record = some after) :
    ∃ otherAfter, (stops.map (Stop.shift names.length)).foldlM
        (visit filesystem (branch.below names) depth) other = some otherAfter ∧
      Mirrors names.length after otherAfter := by
  induction stops generalizing record other with
  | nil =>
      cases visited
      exact ⟨other, rfl, mirrors⟩
  | cons stop stops ih =>
      obtain ⟨middle, first, rest⟩ := foldl_m_cons_eq_some visited
      obtain ⟨otherMiddle, otherFirst, middleMirrors⟩ :=
        visits mirrors (reached stop List.mem_cons_self) first
      obtain ⟨otherAfter, otherRest, afterMirrors⟩ :=
        ih (fun stop member => reached stop (List.mem_cons_of_mem _ member)) middleMirrors rest
      refine ⟨otherAfter, ?_, afterMirrors⟩
      rw [List.map_cons, List.foldlM_cons, otherFirst]
      exact otherRest

theorem visit_mirrors (relocates : branch.Relocates filesystem names) {depth : Nat} {after : Record}
    {stop : Stop} (mirrors : Mirrors names.length record other)
    (reached : branch.Reaches filesystem (absolute names) stop)
    (visited : record.visit filesystem branch depth stop = some after) :
    ∃ otherAfter, other.visit filesystem (branch.below names) depth (stop.shift names.length) =
      some otherAfter ∧ Mirrors names.length after otherAfter := by
  induction depth generalizing record other after stop with
  | zero => cases visited
  | succ depth ih =>
      rw [visit] at visited ⊢
      by_cases known : stop ∈ record.visited
      · rw [if_pos known] at visited
        cases visited
        exact ⟨other, if_pos ((mirrors.visited stop).mpr known), mirrors⟩
      · rw [if_neg known] at visited
        rw [if_neg (mt (mirrors.visited stop).mp known), Branch.expand_below relocates.sensitive]
        have made :=
          mirrors.make stop (branch.expand filesystem stop) (relocates.matching stop reached)
        exact stops_mirror ih (fun next leads => reached.tail leads) made visited

/-- The names of the directory are looked up one after the other, with a depth of one for each. -/
theorem visit_lead_in (relocates : branch.Relocates filesystem names)
    (named : ∀ name ∈ names, IsName name) (depth : Nat) {front back : List Text}
    (split : names = front ++ back) (record : Record)
    (early : ∀ stop ∈ record.visited, stop.index < front.length) :
    ∃ visited : List Stop, (∀ stop ∈ visited, stop.index < names.length) ∧
      record.visit filesystem (branch.below names) (depth + back.length)
          ⟨absolute front, front.length⟩ =
        { record with visited }.visit filesystem (branch.below names) depth
          ⟨absolute names, names.length⟩ := by
  -- On the names ahead: each costs one of the depth and leaves nothing behind but its stop, whose
  -- number is too small to be met again.
  induction back generalizing front record with
  | nil =>
      rw [List.append_nil] at split
      subst split
      exact ⟨record.visited, early, rfl⟩
  | cons name back ih =>
      have fresh : (⟨absolute front, front.length⟩ : Stop) ∉ record.visited :=
        fun known => absurd (early _ known) (Nat.lt_irrefl _)
      have further : names = front ++ [name] ++ back := by rw [split, List.append_cons]
      have directory := relocates.directories front name ⟨back, further.symm⟩
      have expansion :=
        Branch.expand_lead_in relocates.sensitive relocates.nonempty split named directory
      have earlier : ∀ stop ∈ (⟨absolute front, front.length⟩ : Stop) :: record.visited,
          stop.index < (front ++ [name]).length := by
        intro stop member
        rw [List.length_append, List.length_singleton]
        rcases List.mem_cons.mp member with rfl | before
        · exact Nat.lt_succ_self _
        · exact Nat.lt_succ_of_lt (early stop before)
      obtain ⟨visited, within, same⟩ := ih further
        { record with visited := ⟨absolute front, front.length⟩ :: record.visited } earlier
      refine ⟨visited, within, ?_⟩
      rw [← same, List.length_cons, ← Nat.add_assoc, visit, if_neg fresh, expansion]
      simp [make, enter]

theorem follow_mirrors (relocates : branch.Relocates filesystem names)
    (named : ∀ name ∈ names, IsName name) (root : normalize filesystem.root = ['/']) (start : Text)
    {depth : Nat} {after : Record} (agrees : Agrees record other)
    (followed : record.follow filesystem (absolute names) depth branch = some after) :
    ∃ otherAfter, other.follow filesystem start (depth + names.length) (branch.below names) =
      some otherAfter ∧ Agrees after otherAfter := by
  have base : branch.base filesystem (absolute names) = absolute names :=
    Branch.base_of_relative relocates.relative (absolute names)
  have otherBase : (branch.below names).base filesystem start = absolute [] := root
  obtain ⟨visited, within, same⟩ := visit_lead_in relocates named depth (List.nil_append names).symm
    { other with visited := [] } (by simp)
  have mirrors : Mirrors names.length { record with visited := [] } { other with visited } := by
    refine ⟨⟨agrees.handedOut, agrees.read, agrees.findings⟩, fun stop => ?_⟩
    refine iff_of_false (fun member => ?_) List.not_mem_nil
    have bound := within _ member
    simp only [Stop.shift] at bound
    omega
  have reached : branch.Reaches filesystem (absolute names) ⟨absolute names, 0⟩ := by
    rw [Branch.Reaches, base]
  rw [follow, base] at followed
  obtain ⟨otherAfter, visits, result⟩ := visit_mirrors relocates mirrors reached followed
  refine ⟨otherAfter, ?_, result.toAgrees⟩
  rw [follow, otherBase]
  rw [Stop.shift, Nat.zero_add] at visits
  exact same.trans visits

end Record

namespace Pattern

variable {filesystem : Filesystem} {names : List Text}

theorem branches_mirror (named : ∀ name ∈ names, IsName name)
    (root : normalize filesystem.root = ['/']) (start : Text) {depth : Nat} {branches : List Branch}
    (relocates : ∀ branch ∈ branches, branch.Relocates filesystem names)
    {record other after : Record} (agrees : Record.Agrees record other)
    (followed : branches.foldlM (Record.follow filesystem (absolute names) depth) record =
      some after) :
    ∃ otherAfter,
      (branches.map (Branch.below names)).foldlM
        (Record.follow filesystem start (depth + names.length)) other = some otherAfter ∧
      Record.Agrees after otherAfter := by
  induction branches generalizing record other with
  | nil =>
      cases followed
      exact ⟨other, rfl, agrees⟩
  | cons branch branches ih =>
      obtain ⟨middle, first, rest⟩ := foldl_m_cons_eq_some followed
      obtain ⟨otherMiddle, otherFirst, middleAgrees⟩ :=
        Record.follow_mirrors (relocates branch List.mem_cons_self) named root start agrees first
      obtain ⟨otherAfter, otherRest, afterAgrees⟩ :=
        ih (fun branch member => relocates branch (List.mem_cons_of_mem _ member)) middleAgrees rest
      refine ⟨otherAfter, ?_, afterAgrees⟩
      rw [List.map_cons, List.foldlM_cons, otherFirst]
      exact otherRest

/--
The traversal from a directory and the one of the pattern below it, from anywhere, tell the same.
-/
theorem traverse_mirrors {pattern : Pattern} {directory : Text}
    (named : ∀ name ∈ names, IsName name) (root : normalize filesystem.root = ['/'])
    (starts : Walk.startIn filesystem directory = absolute names)
    (relocates : ∀ branch ∈ pattern.branches, branch.Relocates filesystem names) (start : Text)
    {depth : Nat} {record : Record}
    (traversed : pattern.traverse filesystem directory depth = some record) :
    ∃ other, Pattern.traverse filesystem ⟨pattern.branches.map (Branch.below names)⟩ start
        (depth + names.length) = some other ∧ Record.Agrees record other := by
  rw [traverse, starts] at traversed
  exact branches_mirror named root _ relocates ⟨rfl, rfl, rfl⟩ traversed

end Pattern

end PathGlob
