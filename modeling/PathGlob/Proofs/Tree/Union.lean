import PathGlob.Proofs.Pattern.Combination
import PathGlob.Proofs.Tree.Walks
import PathGlob.Proofs.Walk.Succession

/-!
# Combinations are unions

Patterns that do not absorb are combined into one that matches what any of them matches, and whose
walk hands out what their walks hand out one after the other, each path where it came up first. A
branch that was dropped because an earlier one has its text and case mode is the same branch, so
whatever it would have found was found by then.
-/
namespace PathGlob

set_option autoImplicit false

namespace Branch

variable {branches : List Branch}

theorem distinct_yields (parsed : ∀ branch ∈ branches, branch.Parsed) (yield : Branch → List Text) :
    distinctBy id ((distinct branches).flatMap yield) = distinctBy id (branches.flatMap yield) := by
  apply distinctBy_flatMap_of_distinctBy
  intro left isLeft right isRight same path member
  rw [(parsed left isLeft).eq_of_identity (parsed right isRight) same] at member
  exact List.mem_map_of_mem member

end Branch

theorem Pattern.matches_union_iff {patterns : List Pattern}
    (parsed : ∀ branch ∈ patterns.flatMap branches, branch.Parsed) (path : Text) :
    (ofBranches (patterns.flatMap branches)).matchesPath path = true ↔
      ∃ pattern ∈ patterns, pattern.matchesPath path = true := by
  rw [of_branches_matches parsed, List.any_flatMap, List.any_eq_true]
  rfl

namespace Walk

variable {filesystem : Filesystem} {start : Text} {inside : List Text}

/-- The walk of all branches of some patterns is made up of the walks of the patterns. -/
theorem hands_out_union {patterns : List Pattern}
    (parsed : ∀ branch ∈ patterns.flatMap Pattern.branches, branch.Parsed)
    (territory : filesystem.Territory ⟨patterns.flatMap Pattern.branches⟩ start inside) :
    ∃ found,
      List.Forall₂ (fun pattern paths => HandsOut filesystem pattern start paths) patterns found ∧
      HandsOut filesystem (.ofBranches (patterns.flatMap Pattern.branches)) start
        (distinctBy id found.flatten) := by
  have deep :
      ∃ depth, (Pattern.stopsInside ⟨patterns.flatMap Pattern.branches⟩ inside).length < depth :=
    ⟨_, Nat.lt_succ_self _⟩
  rcases deep with ⟨depth, enough⟩
  let yield := Branch.yield filesystem (startIn filesystem start) depth
  refine ⟨patterns.map fun pattern => distinctBy id (pattern.branches.flatMap yield), ?_, ?_⟩
  · rw [List.forall₂_map_right_iff, List.forall₂_same]
    intro pattern member
    apply hands_out_yields territory enough
    intro branch inside
    exact List.mem_flatMap.mpr ⟨pattern, member, inside⟩
  · have kept : (Pattern.ofBranches (patterns.flatMap Pattern.branches)).branches ⊆
        patterns.flatMap Pattern.branches := (distinctBy_sublist Branch.identity _).subset
    have united := hands_out_yields territory enough kept
    have same : distinctBy id
          (patterns.map fun pattern => distinctBy id (pattern.branches.flatMap yield)).flatten =
        distinctBy id ((Branch.distinct (patterns.flatMap Pattern.branches)).flatMap yield) := by
      rw [Branch.distinct_yields parsed, ← List.flatMap_def, distinctBy_flatMap_distinctBy,
        List.flatMap_assoc]
    rw [same]
    exact united

end Walk

theorem Handle.combine_usual {handles : List Handle} (nonempty : handles ≠ [])
    (proper : ∀ handle ∈ handles, handle.pattern.Proper)
    (usual : ∀ handle ∈ handles, handle.pattern.absorbing = false) (supply : Supply) :
    ∃ union after, combine (handles.map some) supply = .ok (union, after) ∧
      union.pattern = .ofBranches ((handles.map pattern).flatMap Pattern.branches) := by
  have present : (handles.map some).reduceOption = handles := reduce_option_map_some handles
  have among : ∀ handle, some handle ∈ handles.map some → handle ∈ handles := by
    intro handle member
    rwa [← List.reduceOption_mem_iff, present] at member
  have properEntries : ∀ handle, some handle ∈ handles.map some → handle.pattern.Proper :=
    fun handle member => proper handle (among handle member)
  have usualEntries : ∀ handle, some handle ∈ handles.map some → handle.pattern.absorbing = false :=
    fun handle member => usual handle (among handle member)
  rcases List.exists_mem_of_ne_nil handles nonempty with ⟨handle, member⟩
  rcases exists_union_of_present (List.mem_map_of_mem member) with ⟨_, united⟩
  rcases combine_eq_ok_of_union properEntries united supply with ⟨union, after, combined, -⟩
  refine ⟨union, after, combined, ?_⟩
  rw [combine_branches properEntries usualEntries combined, present, List.flatMap_map]

namespace Tree

/--
Patterns that do not absorb combine into one that matches exactly what some of them matches. In
every tree built from paths, some of its directories unreadable, its walk hands out what their walks
hand out one after the other, each path where it came up first.
-/
theorem combination_is_union {handles : List Handle} (nonempty : handles ≠ [])
    (built : ∀ handle ∈ handles, handle.pattern.Built)
    (usual : ∀ handle ∈ handles, handle.pattern.absorbing = false) (supply : Supply) :
    ∃ union after, Handle.combine (handles.map some) supply = .ok (union, after) ∧
      (∀ path, union.pattern.matchesPath path = true ↔
        ∃ handle ∈ handles, handle.pattern.matchesPath path = true) ∧
      ∀ paths unreadable start, ∃ found,
        List.Forall₂ (fun handle own => Walk.HandsOut { ofPaths paths with unreadable }.filesystem
          handle.pattern start own) handles found ∧
        Walk.HandsOut { ofPaths paths with unreadable }.filesystem union.pattern start
          (distinctBy id found.flatten) := by
  have proper : ∀ handle ∈ handles, handle.pattern.Proper := fun handle member =>
    (built handle member).proper
  rcases Handle.combine_usual nonempty proper usual supply with ⟨union, after, combined, same⟩
  have parsed : ∀ branch ∈ (handles.map Handle.pattern).flatMap Pattern.branches,
      branch.Parsed := by
    intro branch inside
    rcases List.mem_flatMap.mp inside with ⟨pattern, member, inside⟩
    rcases List.mem_map.mp member with ⟨handle, among, rfl⟩
    exact (proper handle among).parsed branch inside
  refine ⟨union, after, combined, ?_, ?_⟩
  · intro path
    rw [same, Pattern.matches_union_iff parsed]
    simp only [List.mem_map, exists_exists_and_eq_and]
  · intro paths unreadable start
    have shape := (of_paths_shape paths).with_unreadable unreadable
    rcases Walk.hands_out_union parsed (shape.territory parsed start) with ⟨found, each, whole⟩
    rw [same]
    exact ⟨found, List.forall₂_map_left_iff.mp each, whole⟩

/--
The pattern `*.A;/b/*` without regard to case and the pattern `*;/b/*` with regard to it, on a tree
with the unreadable directory `/b`, which cuts both walks short.
-/
theorem combination_is_union_overlapping :
    ∃ first second,
      Pattern.compile .lenient ['*', '.', 'A', ';', '/', 'b', '/', '*'] .insensitive = .ok first ∧
      Pattern.compile .lenient ['*', ';', '/', 'b', '/', '*'] .sensitive = .ok second ∧
      ∃ union after, Handle.combine [some ⟨1, first⟩, some ⟨2, second⟩] ⟨3⟩ = .ok (union, after) ∧
        (union.pattern.matchesPath ['x', '.', 'a'] = true ↔
          ∃ handle ∈ [⟨1, first⟩, (⟨2, second⟩ : Handle)],
            handle.pattern.matchesPath ['x', '.', 'a'] = true) ∧
        ∃ found : List (List Text),
          List.Forall₂ (fun handle own => Walk.HandsOut
            { ofPaths [['/', 'x', '.', 'a'], ['/', 'b', '/', 'c']] with
              unreadable := [['/', 'b']] }.filesystem handle.pattern ['/'] own)
            [⟨1, first⟩, (⟨2, second⟩ : Handle)] found ∧
          Walk.HandsOut
            { ofPaths [['/', 'x', '.', 'a'], ['/', 'b', '/', 'c']] with
              unreadable := [['/', 'b']] }.filesystem union.pattern ['/']
            (distinctBy id found.flatten) := by
  have first : Pattern.compile .lenient ['*', '.', 'A', ';', '/', 'b', '/', '*'] .insensitive =
      .ok ⟨[⟨⟨false, [.compound [.star, .literal ['.', 'A']]]⟩, .insensitive⟩,
        ⟨⟨true, [.literal ['b'], .compound [.star]]⟩, .insensitive⟩]⟩ := by decide +kernel
  have second : Pattern.compile .lenient ['*', ';', '/', 'b', '/', '*'] .sensitive =
      .ok ⟨[⟨⟨false, [.compound [.star]]⟩, .sensitive⟩,
        ⟨⟨true, [.literal ['b'], .compound [.star]]⟩, .sensitive⟩]⟩ := by decide +kernel
  have built : ∀ handle ∈ [(⟨1, _⟩ : Handle), ⟨2, _⟩], handle.pattern.Built :=
    List.forall_mem_cons.mpr ⟨.compiled first, List.forall_mem_singleton.mpr (.compiled second)⟩
  rcases combination_is_union (List.cons_ne_nil _ _) built (by decide +kernel) ⟨3⟩ with
    ⟨union, after, combined, matching, walking⟩
  exact ⟨_, _, first, second, union, after, combined, matching _, walking _ _ _⟩

end Tree

end PathGlob
