import PathGlob.Proofs.Path.Below
import PathGlob.Proofs.Tree.Reach

/-!
# Relative walks stay below their start

A walk whose branches are all relative asks the filesystem about its start and what is below it, and
about nothing else. The invariant is that every stop is the start or below it and every find is
below it. It holds from the beginning, and a step keeps it: listings tell what is right below the
directory that was asked about, and a name that is looked up is a whole segment, never empty, `.` or
`..`. None of this needs the walk to come to an end.
-/
namespace PathGlob

set_option autoImplicit false

open PathGlob.Path

/-- Whether the listings of a directory only tell what is right below it. -/
structure Filesystem.ListsBelow (filesystem : Filesystem) (directory : Text) : Prop where
  entries : ∀ paths, (filesystem.entries directory).outcome = .ok paths →
    ∀ path ∈ paths, ∃ name, IsSegment name ∧ path = join directory name
  directories : ∀ paths, (filesystem.directories directory).outcome = .ok paths →
    ∀ path ∈ paths, ∃ name, IsSegment name ∧ path = join directory name

structure Filesystem.SameAt (left right : Filesystem) (path : Text) : Prop where
  isFile : left.isFile path = right.isFile path
  isDirectory : left.isDirectory path = right.isDirectory path
  entries : left.entries path = right.entries path
  directories : left.directories path = right.directories path

theorem Filesystem.SameAt.holds_eq {left right : Filesystem} {path : Text}
    (same : left.SameAt right path) :
    left.holds path = right.holds path := by
  rw [holds, holds, same.isFile, same.isDirectory]

def Trail.asks (trail : Trail) (stop : Stop) : Option Text :=
  if stop ∈ trail.behind then none
  else
    match trail.branch.selectors[stop.index]? with
    | none => none
    | some (.exactly name) => some (join stop.directory name)
    | some (.named _) => some stop.directory
    | some .everywhere => some stop.directory

def Walk.asks (walk : Walk) : Option Text :=
  match walk.trail with
  | none => none
  | some trail =>
    match trail.finds, trail.ahead with
    | [], stop :: _ => trail.asks stop
    | _, _ => none

namespace Trail

variable {left right : Filesystem} {trail : Trail} {stop : Stop}

theorem asks_of_lists (fresh : stop ∉ trail.behind) {selector : Selector}
    (selects : trail.branch.selectors[stop.index]? = some selector) (lists : selector.Lists) :
    trail.asks stop = some stop.directory := by
  rw [asks, if_neg fresh, selects]
  cases selector with
  | exactly name => exact lists.elim
  | named regex => rfl
  | everywhere => rfl

/-- A visit depends on the answers about the path that it asks about, and on no others. -/
theorem visit_eq_of_asks (same : ∀ path ∈ trail.asks stop, left.SameAt right path) :
    trail.visit left stop = trail.visit right stop := by
  by_cases known : stop ∈ trail.behind
  · rw [visit_known trail left known, visit_known trail right known]
  · rw [asks, if_neg known] at same
    rw [visit, visit, if_neg (by simpa using known), if_neg (by simpa using known)]
    dsimp only
    cases selects : trail.branch.selectors[stop.index]? with
    | none => rfl
    | some selector =>
        rw [selects] at same
        cases selector with
        | exactly name =>
            have answers := same _ rfl
            dsimp only [lookUp]
            rw [answers.holds_eq, answers.isDirectory]
        | named regex =>
            have answers := same _ rfl
            simp only [compare, answers.entries, answers.directories]
        | everywhere =>
            have answers := same _ rfl
            simp only [descend, answers.entries, answers.directories]

end Trail

/--
A step depends on where the next branch starts and on the answers about the path it asks about.
-/
theorem Walk.step_eq_of_asks {left right : Filesystem} {walk : Walk}
    (bases : ∀ branch ∈ walk.waiting, walk.base left branch = walk.base right branch)
    (same : ∀ path ∈ walk.asks, left.SameAt right path) : step left walk = step right walk := by
  rw [step, step]
  rw [asks] at same
  cases amid : walk.trail with
  | none =>
      cases waiting : walk.waiting with
      | nil => rfl
      | cons branch others => simp only [bases branch (by simp [waiting])]
  | some trail =>
      rw [amid] at same
      dsimp only at same ⊢
      split
      · rfl
      · rename_i stop ahead settled next
        rw [settled, next] at same
        have visited :
            { trail with ahead }.visit left stop = { trail with ahead }.visit right stop :=
          Trail.visit_eq_of_asks same
        rw [visited]
      · rfl

namespace Branch

variable {filesystem : Filesystem} {branch : Branch} {stop : Stop}

/-- Whether a branch starts where the walk does and only looks up whole segments. -/
structure StaysBelow (branch : Branch) : Prop where
  relative : branch.rooted = false
  segments : ∀ name, .exactly name ∈ branch.selectors → IsSegment name

theorem Parsed.stays_below (parsed : branch.Parsed) (relative : branch.rooted = false) :
    branch.StaysBelow :=
  ⟨relative, fun _ selected => (parsed.is_name_of_exactly selected).is_segment⟩

theorem candidate_cases {path : Text}
    (candidate : path ∈ (branch.expand filesystem stop).candidates) :
    (∃ name, .exactly name ∈ branch.selectors ∧ path = join stop.directory name) ∨
      ∃ selector paths, branch.selectors[stop.index]? = some selector ∧ selector.Lists ∧
        (filesystem.entries stop.directory).outcome = .ok paths ∧ path ∈ paths := by
  cases selects : branch.selectors[stop.index]? with
  | none => simp [expand, selects] at candidate
  | some selector =>
      rcases inner_or_last selects with inner | last
      · rw [expand_of_inner selects inner] at candidate
        cases selector <;>
          simp [Selector.expandInner, Expansion.mem_candidates_listing_iff] at candidate
      · rw [expand_of_last selects last] at candidate
        cases selector with
        | exactly name =>
            simp only [Selector.expandLast] at candidate
            split at candidate
            · exact .inl ⟨name, List.mem_of_getElem? selects, List.mem_singleton.mp candidate⟩
            · cases candidate
        | named regex =>
            rcases (Expansion.mem_candidates_listing_iff _ _ _).mp candidate
              with ⟨paths, listed, among⟩
            exact .inr ⟨_, paths, rfl, trivial, listed, (List.mem_filter.mp among).1⟩
        | everywhere =>
            rcases (Expansion.mem_candidates_listing_iff _ _ _).mp candidate
              with ⟨paths, listed, among⟩
            exact .inr ⟨_, paths, rfl, trivial, listed, among⟩

end Branch

structure Trail.Confined (start : Text) (trail : Trail) : Prop where
  branch : trail.branch.StaysBelow
  ahead : ∀ stop ∈ trail.ahead, Within start stop.directory
  finds : ∀ path ∈ trail.finds, Below start path

structure Walk.Confined (start : Text) (walk : Walk) : Prop where
  starts : walk.start = start
  waiting : ∀ branch ∈ walk.waiting, branch.StaysBelow
  trail : ∀ trail ∈ walk.trail, trail.Confined start

variable {filesystem : Filesystem} {start : Text}

namespace Trail.Confined

variable {trail : Trail} {stop : Stop}

theorem asks_within (confined : trail.Confined start) (nonempty : start ≠ [])
    (within : Within start stop.directory) : ∀ path ∈ trail.asks stop, Within start path := by
  intro path asked
  rw [asks] at asked
  split at asked
  · cases asked
  · split at asked
    · cases asked
    · rename_i name selects
      cases asked
      exact .inr
        (within.join nonempty (confined.branch.segments name (List.mem_of_getElem? selects)))
    · cases asked
      exact within
    · cases asked
      exact within

theorem candidate_below (confined : trail.Confined start) (nonempty : start ≠ [])
    (within : Within start stop.directory) (fresh : stop ∉ trail.behind)
    (lists : ∀ asked ∈ trail.asks stop, filesystem.ListsBelow asked) {path : Text}
    (candidate : path ∈ (trail.branch.expand filesystem stop).candidates) : Below start path := by
  rcases Branch.candidate_cases candidate with
    ⟨name, selected, rfl⟩ | ⟨selector, paths, selects, reads, listed, among⟩
  · exact within.join nonempty (confined.branch.segments name selected)
  · rcases (lists _ (asks_of_lists fresh selects reads)).entries _ listed path among
      with ⟨name, segment, rfl⟩
    exact within.join nonempty segment

theorem leads_within (confined : trail.Confined start) (nonempty : start ≠ [])
    (within : Within start stop.directory) (fresh : stop ∉ trail.behind)
    (lists : ∀ asked ∈ trail.asks stop, filesystem.ListsBelow asked) {next : Stop}
    (leads : trail.branch.Leads filesystem stop next) : Within start next.directory := by
  cases Branch.leads_by leads with
  | literal selects =>
      exact .inr (within.join nonempty (confined.branch.segments _ (List.mem_of_getElem? selects)))
  | named selects _ listed among =>
      have told := (lists _ (asks_of_lists fresh selects trivial)).directories _ listed _ among
      rcases told with ⟨name, segment, rfl⟩
      exact .inr (within.join nonempty segment)
  | below selects _ listed among =>
      have told := (lists _ (asks_of_lists fresh selects trivial)).directories _ listed _ among
      rcases told with ⟨name, segment, rfl⟩
      exact .inr (within.join nonempty segment)
  | onward => exact within

theorem visit (confined : trail.Confined start) (nonempty : start ≠ [])
    (within : Within start stop.directory)
    (lists : ∀ asked ∈ trail.asks stop, filesystem.ListsBelow asked) :
    (trail.visit filesystem stop).trail.Confined start := by
  by_cases known : stop ∈ trail.behind
  · rw [visit_known trail filesystem known]
    exact confined
  · rw [visit_fresh trail filesystem known]
    constructor
    · exact confined.branch
    · intro next member
      rcases List.mem_append.mp member with leads | earlier
      · exact confined.leads_within nonempty within known lists leads
      · exact confined.ahead next earlier
    · intro path member
      rcases List.mem_append.mp member with earlier | candidate
      · exact confined.finds path earlier
      · exact confined.candidate_below nonempty within known lists candidate

end Trail.Confined

namespace Walk

/-- Whether listings only tell what is right below the directories that a walk ever asks about. -/
def ListsBelow (filesystem : Filesystem) (walk : Walk) : Prop :=
  ∀ items last, Step.Runs (step filesystem) walk items last →
    ∀ asked ∈ last.asks, filesystem.ListsBelow asked

namespace ListsBelow

variable {walk next : Walk}

theorem now (lists : walk.ListsBelow filesystem) :
    ∀ asked ∈ walk.asks, filesystem.ListsBelow asked :=
  lists [] walk (.here walk)

theorem silent (lists : walk.ListsBelow filesystem) (moves : step filesystem walk = .silent next) :
    next.ListsBelow filesystem := by
  intro items last runs
  exact lists items last (.silent moves runs)

theorem item {finding : Finding} (lists : walk.ListsBelow filesystem)
    (moves : step filesystem walk = .item finding next) : next.ListsBelow filesystem := by
  intro items last runs
  exact lists _ last (.item moves runs)

end ListsBelow

namespace Confined

variable {walk : Walk}

theorem asks_within (confined : walk.Confined start) (nonempty : start ≠ []) :
    ∀ path ∈ walk.asks, Within start path := by
  rw [Walk.asks]
  cases amid : walk.trail with
  | none => simp
  | some trail =>
      have inTrail := confined.trail trail amid
      dsimp only
      split
      · rename_i stop ahead settled next
        exact inTrail.asks_within nonempty (inTrail.ahead stop (by simp [next]))
      · simp

def Keeps (start : Text) : Step Walk Finding → Prop
  | .item finding next => next.Confined start ∧ ∀ path, finding = .path path → Below start path
  | .silent next => next.Confined start
  | .over => True

theorem step (confined : walk.Confined start) (nonempty : start ≠ [])
    (lists : ∀ asked ∈ walk.asks, filesystem.ListsBelow asked) :
    Keeps start (Walk.step filesystem walk) := by
  rw [Walk.step]
  rw [Walk.asks] at lists
  cases amid : walk.trail with
  | none =>
      cases waiting : walk.waiting with
      | nil => trivial
      | cons branch others =>
          have stays := List.forall_mem_cons.mp (waiting ▸ confined.waiting)
          refine ⟨confined.starts, stays.2, ?_⟩
          intro trail began
          cases began
          refine ⟨stays.1, ?_, List.forall_mem_nil _⟩
          intro stop member
          rw [List.mem_singleton.mp member, Walk.base, stays.1.relative, if_neg Bool.false_ne_true]
          exact .inl confined.starts
  | some trail =>
      have inTrail := confined.trail trail amid
      rw [amid] at lists
      dsimp only at lists ⊢
      split
      · rename_i path finds pending
        have below := List.forall_mem_cons.mp (pending ▸ inTrail.finds)
        have left : ∀ other ∈ some { trail with finds }, other.Confined start := by
          intro other same
          cases same
          exact ⟨inTrail.branch, inTrail.ahead, below.2⟩
        split
        · refine ⟨⟨confined.starts, confined.waiting, left⟩, ?_⟩
          intro found same
          cases same
          exact below.1
        · exact ⟨confined.starts, confined.waiting, left⟩
      · rename_i stop ahead settled next
        rw [settled, next] at lists
        have within := List.forall_mem_cons.mp (next ▸ inTrail.ahead)
        have rest : ({ trail with ahead } : Trail).Confined start :=
          ⟨inTrail.branch, within.2, inTrail.finds⟩
        have visited : ∀ other ∈ some ({ trail with ahead }.visit filesystem stop).trail,
            other.Confined start := by
          intro other same
          cases same
          exact rest.visit nonempty within.1 lists
        split
        · exact ⟨⟨confined.starts, confined.waiting, visited⟩, by simp⟩
        · exact ⟨confined.starts, confined.waiting, visited⟩
      · exact ⟨confined.starts, confined.waiting, by simp⟩

theorem silent_step (confined : walk.Confined start) (nonempty : start ≠ [])
    (lists : ∀ asked ∈ walk.asks, filesystem.ListsBelow asked) {next : Walk}
    (moves : Walk.step filesystem walk = .silent next) : next.Confined start := by
  have kept := confined.step nonempty lists
  rwa [moves] at kept

theorem item_step (confined : walk.Confined start) (nonempty : start ≠ [])
    (lists : ∀ asked ∈ walk.asks, filesystem.ListsBelow asked) {finding : Finding} {next : Walk}
    (moves : Walk.step filesystem walk = .item finding next) :
    next.Confined start ∧ ∀ path, finding = .path path → Below start path := by
  have kept := confined.step nonempty lists
  rwa [moves] at kept

/-- However far a walk has come, it is confined and has handed out paths below its start only. -/
theorem runs (nonempty : start ≠ []) {items : List (Finding × Walk)} {last : Walk}
    (runs : Step.Runs (Walk.step filesystem) walk items last) (confined : walk.Confined start)
    (lists : walk.ListsBelow filesystem) :
    last.Confined start ∧ ∀ path ∈ items.filterMap (·.1.path?), Below start path := by
  induction runs with
  | here => exact ⟨confined, List.forall_mem_nil _⟩
  | silent moves _ ih =>
      exact ih (confined.silent_step nonempty lists.now moves) (lists.silent moves)
  | @item state next last produced items moves _ ih =>
      rcases confined.item_step nonempty lists.now moves with ⟨kept, below⟩
      have rest := ih kept (lists.item moves)
      refine ⟨rest.1, ?_⟩
      cases produced with
      | path found =>
          simp only [List.filterMap_cons, Finding.path?, List.forall_mem_cons]
          exact ⟨below found rfl, rest.2⟩
      | failure error => exact rest.2

theorem step_eq (confined : walk.Confined start) (nonempty : start ≠ []) {other : Filesystem}
    (same : ∀ path, Within start path → filesystem.SameAt other path) :
    Walk.step filesystem walk = Walk.step other walk := by
  apply Walk.step_eq_of_asks
  · intro branch member
    rw [Walk.base, Walk.base, (confined.waiting branch member).relative]
    rfl
  · intro path asked
    exact same path (confined.asks_within nonempty path asked)

theorem runs_iff (confined : walk.Confined start) (lists : walk.ListsBelow filesystem)
    (nonempty : start ≠ []) {other : Filesystem}
    (same : ∀ path, Within start path → filesystem.SameAt other path)
    (items : List (Finding × Walk)) (last : Walk) :
    Step.Runs (Walk.step filesystem) walk items last ↔
    Step.Runs (Walk.step other) walk items last := by
  apply Step.Runs.of_same (fun walk => walk.Confined start ∧ walk.ListsBelow filesystem) _ _ _
    ⟨confined, lists⟩
  · intro walk good
    exact good.1.step_eq nonempty same
  · intro walk next good moves
    exact ⟨good.1.silent_step nonempty good.2.now moves, good.2.silent moves⟩
  · intro walk finding next good moves
    exact ⟨(good.1.item_step nonempty good.2.now moves).1, good.2.item moves⟩

end Confined

theorem begin_confined {pattern : Pattern} (built : pattern.Built)
    (relative : ∀ branch ∈ pattern.branches, branch.rooted = false) (filesystem : Filesystem)
    (path : Text) :
    (begin pattern filesystem path).Confined (startIn filesystem path) where
  starts := rfl
  waiting branch member := (built.proper.parsed branch member).stays_below (relative branch member)
  trail := by simp [begin]

/--
A walk of relative branches never leaves its start, however far it goes: what it asks about is the
start or below it, and what it hands out is below it. It runs alike in all filesystems that have one
working directory and give the same answers there. The literals of its branches are whole segments
that lead further down.
-/
theorem relative_walk_confined {pattern : Pattern} (built : pattern.Built)
    (relative : ∀ branch ∈ pattern.branches, branch.rooted = false) {filesystem : Filesystem}
    {path : Text} (nonempty : startIn filesystem path ≠ [])
    (lists : (begin pattern filesystem path).ListsBelow filesystem) :
    (∀ items last, Step.Runs (step filesystem) (begin pattern filesystem path) items last →
      (∀ asked ∈ last.asks, Within (startIn filesystem path) asked) ∧
      ∀ found ∈ items.filterMap (·.1.path?), Below (startIn filesystem path) found) ∧
    (∀ other : Filesystem, filesystem.workingDirectory = other.workingDirectory →
      (∀ place, Within (startIn filesystem path) place → filesystem.SameAt other place) →
      ∀ items last, Step.Runs (step filesystem) (begin pattern filesystem path) items last ↔
        Step.Runs (step other) (begin pattern other path) items last) ∧
    ∀ branch ∈ pattern.branches, ∀ text, .literal text ∈ branch.glob.components →
      IsName text ∧ text ≠ ['.', '.'] := by
  have starts := begin_confined built relative filesystem path
  refine ⟨?_, ?_, ?_⟩
  · intro items last runs
    rcases Confined.runs nonempty runs starts lists with ⟨confined, below⟩
    exact ⟨confined.asks_within nonempty, below⟩
  · intro other sameDirectory same items last
    have begins : begin pattern other path = begin pattern filesystem path := by
      rw [begin, begin, startIn, startIn, sameDirectory]
    rw [begins]
    exact starts.runs_iff lists nonempty same items last
  · intro branch member text among
    have proper := (built.proper.parsed branch member).proper.components _ among
    exact ⟨proper.is_name, fun parent => proper.notParent (congrArg Component.literal parent)⟩

def endless : Filesystem where
  root := ['/']
  workingDirectory := ['/', 'w']
  isFile _ := false
  isDirectory _ := true
  files directory := ⟨[directory], .ok []⟩
  directories directory := ⟨[directory], .ok [join directory ['x']]⟩
  entries directory := ⟨[directory], .ok [join directory ['x']]⟩

theorem relative_walk_confined_endless :
    ∃ pattern, Pattern.compile .lenient ['a', '/', '*', '*'] .sensitive = .ok pattern ∧
      ∀ items last, Step.Runs (step endless) (begin pattern endless ['b']) items last →
        (∀ asked ∈ last.asks, Within ['/', 'w', '/', 'b'] asked) ∧
        ∀ found ∈ items.filterMap (·.1.path?), Below ['/', 'w', '/', 'b'] found := by
  have compiled : Pattern.compile .lenient ['a', '/', '*', '*'] .sensitive =
      .ok ⟨[⟨⟨false, [.literal ['a'], .globstar]⟩, .sensitive⟩]⟩ := by decide +kernel
  have lists : ∀ directory, endless.ListsBelow directory := by
    intro directory
    constructor <;>
    · intro paths listed path among
      cases listed
      exact ⟨['x'], ⟨by decide, by decide⟩, List.mem_singleton.mp among⟩
  refine ⟨_, compiled, ?_⟩
  exact (relative_walk_confined (.compiled compiled) (by decide) (by decide)
    fun _ _ _ asked _ => lists asked).1

end Walk

end PathGlob
