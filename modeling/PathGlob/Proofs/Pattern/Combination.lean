import Mathlib.Data.List.ReduceOption
import PathGlob.Proofs.Pattern.Identity

/-!
# Combinations of patterns

What a combination describes can be told from the patterns alone: it is their union, in which an
absorbing pattern takes the place of all, and in which each branch is found once where it came up
first. Patterns that do not absorb never have a union that does, so it makes no difference whether
patterns are put together at once or in groups. Handles matter only where nothing new is made.
-/
namespace PathGlob

set_option autoImplicit false

namespace Pattern

/-- What patterns describe together. Only no patterns at all describe nothing. -/
def union? (patterns : List Pattern) : Option Pattern :=
  match patterns.find? absorbing with
  | some first => some first
  | none => if patterns.isEmpty then none else some (ofBranches (patterns.flatMap branches))

variable {patterns : List Pattern} {groups : List (List Pattern)}

theorem absorbing_iff (pattern : Pattern) :
    pattern.absorbing = true ↔ pattern.identity = [(anythingText, .sensitive)] := beq_iff_eq

theorem equal_iff (left right : Pattern) :
    left.equal right = true ↔ left.identity = right.identity :=
  beq_iff_eq

theorem union_of_absorbing {first : Pattern} (found : patterns.find? absorbing = some first) :
    union? patterns = some first := by
  rw [union?, found]

theorem union_of_usual (usual : patterns.find? absorbing = none) (nonempty : patterns ≠ []) :
    union? patterns = some (ofBranches (patterns.flatMap branches)) := by
  rw [union?, usual]
  exact if_neg (by simpa using nonempty)

theorem exists_union (nonempty : patterns ≠ []) : ∃ union, union? patterns = some union := by
  cases found : patterns.find? absorbing with
  | some first => exact ⟨first, union_of_absorbing found⟩
  | none => exact ⟨_, union_of_usual found nonempty⟩

theorem Proper.identity_of_mem {pattern : Pattern} (proper : pattern.Proper) {key : Text × CaseMode}
    (only : ∀ branch ∈ pattern.branches, branch.identity = key) : pattern.identity = [key] := by
  have distinct : pattern.identity.Nodup := proper.distinct
  have all : pattern.identity = List.replicate pattern.branches.length key := by
    rw [identity, List.eq_replicate_iff, List.length_map]
    refine ⟨rfl, fun other member => ?_⟩
    rcases List.mem_map.mp member with ⟨branch, among, same⟩
    exact same ▸ only branch among
  have positive := List.length_pos_iff.mpr proper.nonempty
  rw [all, List.nodup_replicate] at distinct
  rw [all, show pattern.branches.length = 1 by omega, List.replicate_one]

theorem of_branches_usual (proper : ∀ pattern ∈ patterns, pattern.Proper)
    (usual : ∀ pattern ∈ patterns, pattern.absorbing = false) :
    (ofBranches (patterns.flatMap branches)).absorbing = false := by
  rw [Bool.eq_false_iff]
  intro absorbs
  have keys := (absorbing_iff _).mp absorbs
  have listed : ∀ key, key ∈ (patterns.flatMap branches).map Branch.identity ↔
      key = (anythingText, .sensitive) := by
    intro key
    rw [← key_mem_distinctBy, ← List.mem_singleton, ← keys]
    rfl
  rcases List.mem_map.mp ((listed _).mpr rfl) with ⟨branch, among, -⟩
  rcases List.mem_flatMap.mp among with ⟨pattern, member, -⟩
  have only : ∀ branch ∈ pattern.branches, branch.identity = (anythingText, .sensitive) := by
    intro other inside
    apply (listed _).mp
    exact List.mem_map_of_mem (List.mem_flatMap.mpr ⟨pattern, member, inside⟩)
  have absorbing := (absorbing_iff pattern).mpr ((proper pattern member).identity_of_mem only)
  rw [usual pattern member] at absorbing
  cases absorbing

theorem find_absorbing_unions (proper : ∀ group ∈ groups, ∀ pattern ∈ group, pattern.Proper)
    (nonempty : ∀ group ∈ groups, group ≠ []) :
    (groups.filterMap union?).find? absorbing = groups.flatten.find? absorbing := by
  induction groups with
  | nil => rfl
  | cons group groups ih =>
      rw [List.forall_mem_cons] at proper nonempty
      rw [List.flatten_cons, List.find?_append, ← ih proper.2 nonempty.2]
      cases found : group.find? absorbing with
      | some first =>
          rw [List.filterMap_cons, union_of_absorbing found]
          exact List.find?_cons_of_pos (List.find?_some found)
      | none =>
          have usual : ∀ pattern ∈ group, pattern.absorbing = false := by
            intro pattern member
            exact Bool.eq_false_iff.mpr (List.find?_eq_none.mp found pattern member)
          rw [List.filterMap_cons, union_of_usual found nonempty.1]
          exact List.find?_cons_of_neg (by simp [of_branches_usual proper.1 usual])

theorem of_branches_unions (groups : List (List Pattern)) :
    ofBranches ((groups.map fun group => ofBranches (group.flatMap branches)).flatMap branches) =
      ofBranches (groups.flatten.flatMap branches) := by
  have inGroups :
      groups.flatten.flatMap branches = groups.flatMap fun group => group.flatMap branches := by
    rw [List.flatten_eq_flatMap, List.flatMap_assoc]
    rfl
  rw [List.flatMap_map, inGroups]
  apply congrArg Pattern.mk
  exact distinctBy_flatMap_distinctBy Branch.identity (fun group => group.flatMap branches) groups

/-- The union of the unions of groups is the union of all patterns. -/
theorem union_unions (proper : ∀ group ∈ groups, ∀ pattern ∈ group, pattern.Proper)
    (nonempty : ∀ group ∈ groups, group ≠ []) :
    union? (groups.filterMap union?) = union? groups.flatten := by
  have absorbed := find_absorbing_unions proper nonempty
  cases found : groups.flatten.find? absorbing with
  | some first => rw [union_of_absorbing found, union_of_absorbing (absorbed.trans found)]
  | none =>
      have each : ∀ group ∈ groups, union? group = some (ofBranches (group.flatMap branches)) := by
        intro group member
        apply union_of_usual
        · rw [List.find?_eq_none] at found ⊢
          exact fun pattern among => found pattern (List.mem_flatten_of_mem member among)
        · exact nonempty group member
      have unions : groups.filterMap union? = groups.map fun group =>
          ofBranches (group.flatMap branches) := by
        rw [← List.filterMap_eq_map]
        exact List.filterMap_congr each
      cases groups with
      | nil => rfl
      | cons group groups =>
          rw [union_of_usual (absorbed.trans found) (by simp [unions]),
            union_of_usual found (by simp [nonempty group List.mem_cons_self]), unions,
            of_branches_unions]

end Pattern

namespace Handle

variable {entries : List (Option Handle)}

theorem mem_distinct_alone {handles : List Handle} {only : Handle}
    (left : distinct handles = [only]) :
    handles.head? = some only ∧ ∀ handle ∈ handles, handle.pattern.identity =
      only.pattern.identity := by
  constructor
  · cases handles with
    | nil => cases left
    | cons first handles =>
        exact congrArg some (List.cons.inj left).1
  · intro handle member
    have key := (key_mem_distinctBy (·.pattern.identity) handles _).mpr (List.mem_map_of_mem member)
    change handle.pattern.identity ∈ (distinct handles).map (·.pattern.identity) at key
    rw [left] at key
    exact List.mem_singleton.mp key

theorem distinct_branches (handles : List Handle) :
    Branch.distinct ((distinct handles).flatMap (·.pattern.branches)) =
      Branch.distinct (handles.flatMap (·.pattern.branches)) := by
  apply distinctBy_flatMap_of_distinctBy
  intro left _ right _ same branch member
  have key : branch.identity ∈ left.pattern.identity := List.mem_map_of_mem member
  rw [same] at key
  exact key

/-- The pattern of a combination is the union of the patterns that are there. -/
theorem combine_pattern (proper : ∀ handle, some handle ∈ entries → handle.pattern.Proper)
    (supply : Supply) :
    (combine entries supply).map (·.1.pattern) =
      (Pattern.union? (entries.reduceOption.map pattern)).elim (.error .emptyCombination) .ok := by
  have inPatterns : ∀ found, entries.reduceOption.find? (·.pattern.absorbing) = found →
      (entries.reduceOption.map pattern).find? Pattern.absorbing = found.map pattern := by
    intro found same
    rw [List.find?_map, ← same]
    rfl
  have union : entries.reduceOption.find? (·.pattern.absorbing) = none → entries.reduceOption ≠ [] →
      Pattern.union? (entries.reduceOption.map pattern) =
        some (.ofBranches ((distinct entries.reduceOption).flatMap (·.pattern.branches))) := by
    intro usual present
    rw [Pattern.union_of_usual (inPatterns none usual) (by simpa using present), List.flatMap_map,
      Pattern.ofBranches, Pattern.ofBranches, distinct_branches]
  have outcome := combine_outcome entries supply
  generalize combine entries supply = result at outcome
  cases outcome with
  | absorbed found =>
      rw [Pattern.union_of_absorbing (inPatterns _ found)]
      rfl
  | nothing absent =>
      rw [absent]
      rfl
  | @alone only usual left =>
      have present : entries.reduceOption ≠ [] := by
        intro none
        rw [none] at left
        cases left
      have member : only ∈ entries.reduceOption := List.mem_of_mem_head? (mem_distinct_alone left).1
      rw [union usual present, left, List.flatMap_singleton,
        (proper only (List.reduceOption_mem_iff.mp member)).of_branches_self]
      rfl
  | several usual present _ =>
      rw [union usual present]
      rfl

def combineGroups (groups : List (List (Option Handle))) : Building Handle := do
  combine ((← groups.mapM combine).map some)

def Agree : Except PatternError (Handle × Supply) → Except PatternError (Handle × Supply) → Prop
  | .ok (left, _), .ok (right, _) => left.equal right = true
  | .error left, .error right => left = right
  | _, _ => False

theorem agree_of_map_eq {left right : Except PatternError (Handle × Supply)}
    (same : left.map (·.1.pattern) = right.map (·.1.pattern)) : Agree left right := by
  cases left with
  | error leftError =>
      cases right with
      | error rightError => exact Except.error.inj same
      | ok _ => cases same
  | ok leftResult =>
      cases right with
      | error _ => cases same
      | ok rightResult =>
          have patterns : leftResult.1.pattern = rightResult.1.pattern := Except.ok.inj same
          change leftResult.1.pattern.equal rightResult.1.pattern = true
          rw [patterns]
          exact beq_self_eq_true _

theorem combine_eq_ok_of_union (proper : ∀ handle, some handle ∈ entries → handle.pattern.Proper)
    {union : Pattern} (united : Pattern.union? (entries.reduceOption.map pattern) = some union)
    (supply : Supply) :
    ∃ handle after, combine entries supply = .ok (handle, after) ∧ handle.pattern = union := by
  have patterns := combine_pattern proper supply
  rw [united] at patterns
  cases result : combine entries supply with
  | error error =>
      rw [result] at patterns
      cases patterns
  | ok both =>
      rw [result] at patterns
      exact ⟨both.1, both.2, rfl, Except.ok.inj patterns⟩

theorem exists_union_of_present {handle : Handle} (present : some handle ∈ entries) :
    ∃ union, Pattern.union? (entries.reduceOption.map pattern) = some union := by
  apply Pattern.exists_union
  have member := List.reduceOption_mem_iff.mpr present
  exact List.ne_nil_of_mem (List.mem_map_of_mem member)

theorem combine_each {groups : List (List (Option Handle))}
    (proper : ∀ group ∈ groups, ∀ handle, some handle ∈ group → handle.pattern.Proper)
    (nonempty : ∀ group ∈ groups, ∃ handle, some handle ∈ group) (supply : Supply) :
    ∃ handles after, groups.mapM combine supply = .ok (handles, after) ∧
      (∀ handle ∈ handles, handle.pattern.Proper) ∧
      handles.map pattern = groups.filterMap fun group =>
        Pattern.union? (group.reduceOption.map pattern) := by
  induction groups generalizing supply with
  | nil => exact ⟨[], supply, rfl, by simp, rfl⟩
  | cons group groups ih =>
      rw [List.forall_mem_cons] at proper nonempty
      rcases nonempty.1 with ⟨_, present⟩
      rcases exists_union_of_present present with ⟨union, united⟩
      rcases combine_eq_ok_of_union proper.1 united supply with ⟨first, middle, combined, same⟩
      rcases ih proper.2 nonempty.2 middle with ⟨handles, after, rest, othersProper, others⟩
      refine ⟨first :: handles, after, ?_, ?_, ?_⟩
      · rw [List.mapM_cons]
        change (combine group supply).bind _ = _
        rw [combined]
        change (groups.mapM combine middle).bind _ = _
        rw [rest]
        rfl
      · exact List.forall_mem_cons.mpr ⟨combine_proper proper.1 combined, othersProper⟩
      · rw [List.map_cons, List.filterMap_cons, united, same, others]

theorem reduce_option_map_some (handles : List Handle) :
    (handles.map some).reduceOption = handles := by
  rw [List.reduceOption, List.filterMap_map]
  exact List.filterMap_some

theorem patterns_flatten (groups : List (List (Option Handle))) :
    groups.flatten.reduceOption.map pattern =
      (groups.map fun group => group.reduceOption.map pattern).flatten := by
  rw [List.reduceOption, List.filterMap_flatten, List.map_flatten, List.map_map]
  rfl

/-- Combining in groups makes no difference to what is described. -/
theorem combine_groups_agree {groups : List (List (Option Handle))}
    (proper : ∀ handle, some handle ∈ groups.flatten → handle.pattern.Proper)
    (nonempty : ∀ group ∈ groups, ∃ handle, some handle ∈ group) (supply : Supply) :
    Agree (combineGroups groups supply) (combine groups.flatten supply) := by
  have each : ∀ group ∈ groups, ∀ handle, some handle ∈ group → handle.pattern.Proper :=
    fun group member handle among => proper handle (List.mem_flatten_of_mem member among)
  rcases combine_each each nonempty supply with ⟨handles, middle, combined, handlesProper, same⟩
  have grouped : combineGroups groups supply = combine (handles.map some) middle := by
    change (groups.mapM combine supply).bind _ = _
    rw [combined]
    rfl
  have again : ∀ handle, some handle ∈ handles.map some → handle.pattern.Proper := by
    intro handle member
    rw [← List.reduceOption_mem_iff, reduce_option_map_some] at member
    exact handlesProper handle member
  have unions : Pattern.union? (handles.map pattern) =
      Pattern.union? (groups.flatten.reduceOption.map pattern) := by
    rw [same, patterns_flatten, ← Pattern.union_unions, List.filterMap_map]
    · rfl
    · intro patterns member pattern among
      rcases List.mem_map.mp member with ⟨group, inGroups, rfl⟩
      rcases List.mem_map.mp among with ⟨handle, inGroup, rfl⟩
      exact each group inGroups handle (List.reduceOption_mem_iff.mp inGroup)
    · intro patterns member
      rcases List.mem_map.mp member with ⟨group, inGroups, rfl⟩
      rcases nonempty group inGroups with ⟨handle, present⟩
      exact List.ne_nil_of_mem (List.mem_map_of_mem (List.reduceOption_mem_iff.mpr present))
  apply agree_of_map_eq
  rw [grouped, combine_pattern again middle, combine_pattern proper supply, reduce_option_map_some,
    unions]

theorem find_absorbing_of_first {before behind : List (Option Handle)} {first : Handle}
    (split : entries = before ++ some first :: behind) (absorbs : first.pattern.absorbing = true)
    (usual : ∀ other, some other ∈ before → other.pattern.absorbing = false) :
    entries.reduceOption.find? (·.pattern.absorbing) = some first := by
  have notBefore : before.reduceOption.find? (·.pattern.absorbing) = none := by
    rw [List.find?_eq_none]
    intro other member
    simp [usual other (List.reduceOption_mem_iff.mp member)]
  rw [split, List.reduceOption_append, List.find?_append, notBefore, List.reduceOption_cons_of_some,
    Option.none_or]
  exact List.find?_cons_of_pos absorbs

/-- What a combination of given entries comes to, whatever marks were given out before. -/
structure Unites (entries : List (Option Handle)) : Prop where
  failure : ∀ supply error, combine entries supply = .error error ↔
    error = .emptyCombination ∧ ∀ entry ∈ entries, entry = none
  absorbed : ∀ supply before first behind, entries = before ++ some first :: behind →
    first.pattern.absorbing = true →
    (∀ other, some other ∈ before → other.pattern.absorbing = false) →
      combine entries supply = .ok (first, supply)
  /-- Without an absorbing one, all branches are there once, in order, and the result does not
  absorb. -/
  union : (∀ other, some other ∈ entries → other.pattern.absorbing = false) →
    ∀ supply handle after, combine entries supply = .ok (handle, after) →
      handle.pattern.branches =
        Branch.distinct (entries.reduceOption.flatMap (·.pattern.branches)) ∧
        handle.pattern.absorbing = false
  alone : ∀ supply before first behind, entries = before ++ some first :: behind →
    (∀ entry ∈ before, entry = none) → (∀ other, some other ∈ behind → first.equal other = true) →
      combine entries supply = .ok (first, supply)
  /-- Groups with a pattern each may be combined first. -/
  grouped : ∀ groups, groups.flatten = entries → (∀ group ∈ groups, ∃ handle, some handle ∈ group) →
    ∀ supply, Agree (combineGroups groups supply) (combine entries supply)

theorem reduce_option_eq_nil_iff (entries : List (Option Handle)) :
    entries.reduceOption = [] ↔ ∀ entry ∈ entries, entry = none := by
  rw [List.reduceOption, List.filterMap_eq_nil_iff]
  rfl

theorem combine_eq_error_iff (entries : List (Option Handle)) (supply : Supply)
    (error : PatternError) :
    combine entries supply = .error error ↔
      error = .emptyCombination ∧ ∀ entry ∈ entries, entry = none := by
  rw [← reduce_option_eq_nil_iff]
  have outcome := combine_outcome entries supply
  generalize combine entries supply = result at outcome
  cases outcome with
  | absorbed found =>
      have present := List.ne_nil_of_mem (List.mem_of_find?_eq_some found)
      simp [present]
  | nothing absent => simp [absent, eq_comm]
  | alone _ left =>
      have present := List.ne_nil_of_mem (List.mem_of_mem_head? (mem_distinct_alone left).1)
      simp [present]
  | several _ present _ => simp [present]

theorem combine_of_absorbing {first : Handle}
    (found : entries.reduceOption.find? (·.pattern.absorbing) = some first) (supply : Supply) :
    combine entries supply = .ok (first, supply) := by
  have outcome := combine_outcome entries supply
  generalize combine entries supply = result at outcome
  cases outcome with
  | absorbed other =>
      rw [found] at other
      rw [Option.some.inj other]
  | nothing absent => simp [absent] at found
  | alone usual => simp [usual] at found
  | several usual => simp [usual] at found

theorem combine_branches (proper : ∀ handle, some handle ∈ entries → handle.pattern.Proper)
    (usual : ∀ other, some other ∈ entries → other.pattern.absorbing = false)
    {supply after : Supply}
    {handle : Handle} (combined : combine entries supply = .ok (handle, after)) :
    handle.pattern = .ofBranches (entries.reduceOption.flatMap (·.pattern.branches)) := by
  have patterns := combine_pattern proper supply
  rw [combined, Pattern.union_of_usual] at patterns
  · have same := Except.ok.inj patterns
    rw [List.flatMap_map] at same
    exact same
  · rw [List.find?_map, Option.map_eq_none_iff, List.find?_eq_none]
    intro other member
    simp [usual other (List.reduceOption_mem_iff.mp member)]
  · intro absent
    rw [List.map_eq_nil_iff] at absent
    rw [absent] at patterns
    cases patterns

theorem combine_alone {before behind : List (Option Handle)} {first : Handle}
    (split : entries = before ++ some first :: behind) (absent : ∀ entry ∈ before, entry = none)
    (equal : ∀ other, some other ∈ behind → first.equal other = true) (supply : Supply) :
    combine entries supply = .ok (first, supply) := by
  have present : entries.reduceOption = first :: behind.reduceOption := by
    rw [split, List.reduceOption_append, (reduce_option_eq_nil_iff before).mpr absent,
      List.reduceOption_cons_of_some, List.nil_append]
  have others : ∀ other ∈ behind.reduceOption, other.pattern.identity = first.pattern.identity := by
    intro other member
    exact ((Pattern.equal_iff _ _).mp (equal other (List.reduceOption_mem_iff.mp member))).symm
  by_cases absorbs : first.pattern.absorbing = true
  · apply combine_of_absorbing (find_absorbing_of_first split absorbs _)
    intro other member
    cases absent _ member
  · have usual : ∀ other ∈ entries.reduceOption, other.pattern.absorbing = false := by
      rw [present, List.forall_mem_cons]
      refine ⟨Bool.eq_false_iff.mpr absorbs, fun other member => ?_⟩
      rw [Pattern.absorbing, others other member]
      exact Bool.eq_false_iff.mpr absorbs
    have only : distinct entries.reduceOption = [first] := by
      rw [present]
      apply congrArg (first :: ·)
      apply distinctFrom_eq_nil
      intro other member
      exact List.mem_singleton.mpr (others other member)
    have outcome := combine_outcome entries supply
    generalize combine entries supply = result at outcome
    cases outcome with
    | absorbed found =>
        have absorbing := List.find?_some found
        rw [usual _ (List.mem_of_find?_eq_some found)] at absorbing
        cases absorbing
    | nothing none => simp [present] at none
    | alone _ left =>
        rw [only] at left
        rw [(List.cons.inj left).1]
    | several _ _ many => exact absurd only (many first)

/--
Combining fails only without a pattern. The first absorbing pattern is handed back itself, and so is
one that all others are equal to; else the result has the branches of all, each once, and does not
absorb. Combining in groups first gives an equal pattern.
-/
theorem combine_unites (entries : List (Option Handle))
    (built : ∀ handle, some handle ∈ entries → handle.pattern.Built) : Unites entries where
  failure := combine_eq_error_iff entries
  absorbed := fun supply _ _ _ split absorbs usual =>
    combine_of_absorbing (find_absorbing_of_first split absorbs usual) supply
  union := by
    intro usual supply handle after combined
    have proper : ∀ handle, some handle ∈ entries → handle.pattern.Proper := fun handle member =>
      (built handle member).proper
    have patterns := combine_branches proper usual combined
    have same : entries.reduceOption.flatMap (·.pattern.branches) =
        (entries.reduceOption.map pattern).flatMap Pattern.branches := by rw [List.flatMap_map]
    refine ⟨congrArg Pattern.branches patterns, ?_⟩
    rw [patterns, same]
    apply Pattern.of_branches_usual
    · intro pattern member
      rcases List.mem_map.mp member with ⟨handle, among, rfl⟩
      exact proper handle (List.reduceOption_mem_iff.mp among)
    · intro pattern member
      rcases List.mem_map.mp member with ⟨handle, among, rfl⟩
      exact usual handle (List.reduceOption_mem_iff.mp among)
  alone := fun supply _ _ _ split absent equal => combine_alone split absent equal supply
  grouped := by
    intro groups same nonempty supply
    subst same
    exact combine_groups_agree (fun handle member => (built handle member).proper) nonempty supply

/-- The patterns `*.cs` and `*.vb;*.cs`, which share a branch, behind an absent entry. -/
theorem combine_unites_overlapping :
    ∃ first second, Pattern.compile .lenient ['*', '.', 'c', 's'] .sensitive = .ok first ∧
      Pattern.compile .lenient ['*', '.', 'v', 'b', ';', '*', '.', 'c', 's'] .sensitive =
        .ok second ∧
      ∃ handle after,
        combine [none, some ⟨1, first⟩, some ⟨2, second⟩] ⟨3⟩ = .ok (handle, after) ∧
        handle.pattern.branches.map Branch.text = [['*', '.', 'c', 's'], ['*', '.', 'v', 'b']] ∧
        handle.pattern.absorbing = false ∧
        Agree (combineGroups [[none, some ⟨1, first⟩], [some ⟨2, second⟩]] ⟨3⟩)
          (combine [none, some ⟨1, first⟩, some ⟨2, second⟩] ⟨3⟩) := by
  have first : Pattern.compile .lenient ['*', '.', 'c', 's'] .sensitive =
      .ok ⟨[⟨⟨false, [.compound [.star, .literal ['.', 'c', 's']]]⟩, .sensitive⟩]⟩ := by
    decide +kernel
  have second : Pattern.compile .lenient ['*', '.', 'v', 'b', ';', '*', '.', 'c', 's'] .sensitive =
      .ok ⟨[⟨⟨false, [.compound [.star, .literal ['.', 'v', 'b']]]⟩, .sensitive⟩,
        ⟨⟨false, [.compound [.star, .literal ['.', 'c', 's']]]⟩, .sensitive⟩]⟩ := by decide +kernel
  have present : ∀ handle : Handle,
      some handle ∈ [none,
        some ⟨1, ⟨[⟨⟨false, [.compound [.star, .literal ['.', 'c', 's']]]⟩, .sensitive⟩]⟩⟩,
        some ⟨2, ⟨[⟨⟨false, [.compound [.star, .literal ['.', 'v', 'b']]]⟩, .sensitive⟩,
          ⟨⟨false, [.compound [.star, .literal ['.', 'c', 's']]]⟩, .sensitive⟩]⟩⟩] →
        handle.pattern.Built ∧ handle.pattern.absorbing = false := by
    intro handle member
    simp only [List.mem_cons, reduceCtorEq, Option.some.injEq, List.not_mem_nil, or_false, false_or]
      at member
    rcases member with rfl | rfl
    · exact ⟨.compiled first, by decide +kernel⟩
    · exact ⟨.compiled second, by decide +kernel⟩
  have unites := combine_unites _ fun handle member => (present handle member).1
  have union := unites.union (fun handle member => (present handle member).2) ⟨3⟩ _ _ rfl
  refine ⟨_, _, first, second, _, _, rfl, ?_, union.2, ?_⟩
  · rw [union.1]
    decide +kernel
  · exact unites.grouped [[none, some _], [some _]] rfl (by simp) ⟨3⟩

end Handle

end PathGlob
