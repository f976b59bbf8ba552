import PathGlob.Proofs.Pattern.Combination
import PathGlob.Proofs.Pattern.Prefix

/-!
# Directories below directories

Whatever a branch becomes below a directory is the branch behind components that the directory
writes. So to put a branch below one directory and what comes of it below another is to put it below
the two joined. For whole patterns, branches that become equal on the way are found once, which is
no loss as they stay equal.
-/
namespace PathGlob

set_option autoImplicit false

open PathGlob.Path

theorem map_m_map_m_iff {Item Middle Other Error : Type} {f : Item → Except Error Middle}
    {g : Middle → Except Error Other} {both : Item → Except Error Other} {items : List Item}
    (each : ∀ item ∈ items, ∀ other,
      (∃ middle, f item = .ok middle ∧ g middle = .ok other) ↔ both item = .ok other)
    (others : List Other) :
    (∃ middles, items.mapM f = .ok middles ∧ middles.mapM g = .ok others) ↔
    items.mapM both = .ok others := by
  simp only [map_m_eq_ok_iff]
  induction items generalizing others with
  | nil => simp
  | cons item items ih =>
      obtain ⟨first, rest⟩ := List.forall_mem_cons.mp each
      constructor
      · intro inTurn
        obtain ⟨middles, onces, twices⟩ := inTurn
        cases onces with | cons once onces =>
        cases twices with | cons twice twices =>
        exact .cons ((first _).mp ⟨_, once, twice⟩) ((ih rest _).mp ⟨_, onces, twices⟩)
      · intro together
        cases together with | cons done others =>
        obtain ⟨middle, once, twice⟩ := (first _).mpr done
        obtain ⟨middles, onces, twices⟩ := (ih rest _).mpr others
        exact ⟨middle :: middles, .cons once onces, .cons twice twices⟩

/--
Whether an engine that takes a branch takes the relative branches that it ends in. Their expressions
are among those of the branch or shorter.
-/
def Engine.TakesEnds (engine : Engine) : Prop :=
  ∀ whole ending : Branch, ending.mode = whole.mode → ending.rooted = false →
    ending.glob.components <:+ whole.glob.components → engine.Takes whole → engine.Takes ending

variable {engine : Engine}

theorem Engine.lenient_takes_ends : lenient.TakesEnds :=
  fun _ ending _ _ _ _ => lenient_takes ending

namespace Branch

variable {branch result : Branch}

theorem behind_behind (rooted inner : Bool) (front back : List Component) (branch : Branch) :
    (branch.behind inner back).behind rooted front = branch.behind rooted (front ++ back) := by
  rw [behind, behind, behind, Component.merge_append_merge, List.append_assoc]

theorem Parsed.under_under_iff (parsed : branch.Parsed) (ends : engine.TakesEnds)
    {outer inner : Text} (nonempty : outer ≠ []) (relative : startsAtRoot inner = false) :
    (∃ middle, branch.under engine (normalize inner) = .ok middle ∧
        middle.under engine (normalize outer) = .ok result) ↔
      branch.under engine (normalize (outer ++ '/' :: inner)) = .ok result := by
  cases rooted : branch.rooted with
  | true => simp [under_of_rooted, rooted]
  | false =>
      have behindInner : ∀ back, (branch.behind (startsAtRoot inner) back).rooted = false :=
        fun _ => relative
      rw [parsed.under_eq_ok_iff rooted, segments_append, starts_at_root_append nonempty]
      constructor
      · intro nested
        obtain ⟨middle, first, second⟩ := nested
        have middleParsed := under_parsed parsed first
        obtain ⟨⟨back, backWritten, backPlain, rfl⟩, -⟩ := (parsed.under_eq_ok_iff rooted).mp first
        obtain ⟨⟨front, frontWritten, frontPlain, rfl⟩, taken⟩ :=
          (middleParsed.under_eq_ok_iff (behindInner back)).mp second
        exact ⟨⟨front ++ back, frontWritten.append backWritten,
          List.forall_mem_append.mpr ⟨frontPlain, backPlain⟩, behind_behind ..⟩, taken⟩
      · intro direct
        obtain ⟨⟨components, write, plain, rfl⟩, taken⟩ := direct
        obtain ⟨front, back, rfl, frontWritten, backWritten⟩ := write.split
        obtain ⟨frontPlain, backPlain⟩ := List.forall_mem_append.mp plain
        have first : ∀ engine : Engine, engine.Takes (branch.behind (startsAtRoot inner) back) →
            branch.under engine (normalize inner) =
              .ok (branch.behind (startsAtRoot inner) back) := fun engine takenMiddle =>
          (parsed.under_eq_ok_iff rooted).mpr ⟨⟨back, backWritten, backPlain, rfl⟩, takenMiddle⟩
        have middleParsed := under_parsed parsed (first _ (Engine.lenient_takes _))
        have same := behind_behind (startsAtRoot outer) (startsAtRoot inner) front back branch
        have ending : (branch.behind (startsAtRoot inner) back).glob.components <:+
            (branch.behind (startsAtRoot outer) (front ++ back)).glob.components := by
          rw [← same]
          exact Component.suffix_merge_append middleParsed.canonical.apart front
        have takenMiddle : engine.Takes (branch.behind (startsAtRoot inner) back) :=
          ends (branch.behind (startsAtRoot outer) (front ++ back)) _ rfl
            (behindInner back) ending taken
        refine ⟨_, first engine takenMiddle, ?_⟩
        exact (middleParsed.under_eq_ok_iff (behindInner back)).mpr
          ⟨⟨front, frontWritten, frontPlain, same.symm⟩, taken⟩

end Branch

namespace Pattern

variable {pattern result : Pattern}

def SameOutcome : Except PatternError Pattern → Except PatternError Pattern → Prop
  | .ok left, .ok right => left.equal right = true
  | .error _, .error _ => True
  | _, _ => False

theorem same_outcome_of_iff {left right : Except PatternError Pattern}
    (same : ∀ pattern, left = .ok pattern ↔ right = .ok pattern) : SameOutcome left right := by
  cases left with
  | ok pattern =>
      rw [(same pattern).mp rfl]
      exact beq_self_eq_true pattern.identity
  | error error =>
      cases right with
      | ok pattern => cases (same pattern).mpr rfl
      | error other => trivial

/--
Repetitions may be dropped before something is done to each branch if they are dropped behind it.
-/
theorem of_distinct_iff {branches : List Branch} (parsed : ∀ branch ∈ branches, branch.Parsed)
    (f : Branch → Except PatternError Branch) :
    (∃ others, (Branch.distinct branches).mapM f = .ok others ∧ result = ofBranches others) ↔
      ∃ others, branches.mapM f = .ok others ∧ result = ofBranches others := by
  have members := Branch.mem_distinct_iff parsed
  by_cases each : ∀ branch ∈ branches, ∃ other, f branch = .ok other
  · have : Nonempty Branch := ⟨⟨⟨false, []⟩, .sensitive⟩⟩
    choose! g done using each
    have kept : (Branch.distinct branches).mapM f = .ok ((Branch.distinct branches).map g) :=
      map_m_eq_ok_map fun branch member => done branch ((members branch).mp member)
    have same : ofBranches ((Branch.distinct branches).map g) = ofBranches (branches.map g) := by
      apply congrArg Pattern.mk
      rw [Branch.distinct, Branch.distinct, List.map_eq_flatMap, List.map_eq_flatMap]
      apply distinctBy_flatMap_of_distinctBy
      intro left leftMember right rightMember alike
      obtain rfl := (parsed left leftMember).eq_of_identity (parsed right rightMember) alike
      exact fun other member => List.mem_map_of_mem member
    simp [kept, map_m_eq_ok_map done, same]
  · have failed : ∀ other : List Branch, branches.mapM f ≠ .ok other := fun _ mapped =>
      each (exists_of_map_m_ok mapped)
    have keptFailed : ∀ other : List Branch, (Branch.distinct branches).mapM f ≠ .ok other :=
      fun _ mapped => each fun branch member =>
        exists_of_map_m_ok mapped branch ((members branch).mpr member)
    simp [failed, keptFailed]

theorem Proper.under_under_iff (proper : pattern.Proper) (ends : engine.TakesEnds)
    {outer inner : Text} (nonempty : outer ≠ []) (relative : startsAtRoot inner = false) :
    (∃ middle, pattern.under engine inner = .ok middle ∧ middle.under engine outer = .ok result) ↔
      pattern.under engine (outer ++ '/' :: inner) = .ok result := by
  have joined : ∀ others,
      (∃ middles, pattern.branches.mapM (Branch.under engine (normalize inner)) = .ok middles ∧
        middles.mapM (Branch.under engine (normalize outer)) = .ok others) ↔
      pattern.branches.mapM (Branch.under engine (normalize (outer ++ '/' :: inner))) =
        .ok others :=
    map_m_map_m_iff fun branch member other =>
      (proper.parsed branch member).under_under_iff ends nonempty relative
  have again : ∀ middles,
      pattern.branches.mapM (Branch.under engine (normalize inner)) = .ok middles →
        ((ofBranches middles).under engine outer = .ok result ↔
          ∃ others, middles.mapM (Branch.under engine (normalize outer)) = .ok others ∧
            result = ofBranches others) := by
    intro middles once
    have middleProper :=
      under_proper proper ((proper.under_eq_ok_iff inner).mpr ⟨middles, once, rfl⟩)
    rw [middleProper.under_eq_ok_iff]
    exact of_distinct_iff (Branch.parsed_of_under proper.parsed once) _
  rw [proper.under_eq_ok_iff (outer ++ '/' :: inner)]
  constructor
  · intro nested
    obtain ⟨middle, first, second⟩ := nested
    obtain ⟨middles, once, rfl⟩ := (proper.under_eq_ok_iff inner).mp first
    obtain ⟨others, twice, rfl⟩ := (again middles once).mp second
    exact ⟨others, (joined others).mp ⟨middles, once, twice⟩, rfl⟩
  · intro direct
    obtain ⟨others, both, rfl⟩ := direct
    obtain ⟨middles, once, twice⟩ := (joined others).mpr both
    exact ⟨ofBranches middles, (proper.under_eq_ok_iff inner).mpr ⟨middles, once, rfl⟩,
      (again middles once).mpr ⟨others, twice, rfl⟩⟩

/--
Prefixing follows the joining of paths: a pattern put below a directory, and what comes of it below
another one, is equal to the pattern put below the two joined, and the one fails if the other does.
The branches in between end those of the result, so an engine that takes the ends of what it takes
does not refuse them alone.
-/
theorem under_follows_joining (ends : engine.TakesEnds) (built : pattern.Built)
    {outer inner : Text} (nonempty : outer ≠ []) (relative : startsAtRoot inner = false) :
    SameOutcome (pattern.under engine inner >>= Pattern.under engine outer)
      (pattern.under engine (outer ++ '/' :: inner)) := by
  apply same_outcome_of_iff
  intro result
  rw [bind_eq_ok_iff]
  exact built.proper.under_under_iff ends nonempty relative

/--
The branches `a` and `**/a` become one below `**`, and two `**` do below `x/**`. The rooted one
stays.
-/
theorem under_follows_joining_merged :
    ∃ pattern nested : Pattern, pattern.Built ∧ pattern.branches.length = 3 ∧
      (pattern.under .lenient ['*', '*'] >>= Pattern.under .lenient ['x', '/', '*', '*']) =
        .ok nested ∧
      nested.text = ['x', '/', '*', '*', '/', 'a', ';', '/', 'r'] ∧
      SameOutcome (.ok nested)
        (pattern.under .lenient (['x', '/', '*', '*'] ++ '/' :: ['*', '*'])) := by
  have compiled : compile .lenient ['a', ';', '*', '*', '/', 'a', ';', '/', 'r'] .sensitive =
      .ok ⟨[⟨⟨false, [.literal ['a']]⟩, .sensitive⟩,
        ⟨⟨false, [.globstar, .literal ['a']]⟩, .sensitive⟩,
        ⟨⟨true, [.literal ['r']]⟩, .sensitive⟩]⟩ := by decide +kernel
  have nested : (Pattern.under .lenient ['*', '*'] ⟨[⟨⟨false, [.literal ['a']]⟩, .sensitive⟩,
      ⟨⟨false, [.globstar, .literal ['a']]⟩, .sensitive⟩,
      ⟨⟨true, [.literal ['r']]⟩, .sensitive⟩]⟩ >>=
        Pattern.under .lenient ['x', '/', '*', '*']) =
      .ok ⟨[⟨⟨false, [.literal ['x'], .globstar, .literal ['a']]⟩, .sensitive⟩,
        ⟨⟨true, [.literal ['r']]⟩, .sensitive⟩]⟩ := by decide +kernel
  have joins : SameOutcome _
      (Pattern.under .lenient (['x', '/', '*', '*'] ++ '/' :: ['*', '*']) _) :=
    under_follows_joining Engine.lenient_takes_ends (.compiled compiled) (by decide) rfl
  rw [nested] at joins
  exact ⟨_, _, .compiled compiled, rfl, nested, by decide +kernel, joins⟩

end Pattern

end PathGlob
