import PathGlob.Proofs.Glob.Recasing
import PathGlob.Proofs.Pattern.Identity

/-!
# Patterns that differ in case

Ignoring case is being blind to simple case folding, and nothing more. Recased texts are both
accepted or both refused, and if they are accepted, their patterns do not tell recased paths apart.
All of it comes from one direction: whatever a pattern matches, in either case mode, recased
patterns without regard to case match when it is recased. What an engine takes is another matter:
that it takes recased expressions alike has to be assumed of it.
-/
namespace PathGlob

set_option autoImplicit false

/-- Whether an engine takes recased expressions alike where their case is ignored. -/
def Engine.IgnoresCase (engine : Engine) : Prop :=
  ∀ body other : Regex, body.Recased other → engine.refusal? (Regex.foldCase body).print = none →
    engine.refusal? (Regex.foldCase other).print = none

structure Branch.Recased (branch other : Branch) : Prop where
  glob : branch.glob.Recased other.glob
  mode : other.mode = .insensitive

variable {engine : Engine}

namespace Branch

theorem compile_recased {text otherText : Text} {mode : CaseMode} {branch : Branch}
    (compiled : compile engine text mode = .ok branch) (recased : Text.Recased text otherText) :
    ∃ other, compile .lenient otherText .insensitive = .ok other ∧ branch.Recased other := by
  obtain ⟨-, read, -⟩ := compile_eq_ok_iff.mp compiled
  obtain ⟨parsed, anonymous⟩ := parse_eq_ok_iff.mp read
  obtain ⟨glob, otherParsed, recasedGlob⟩ := Glob.parse_recased parsed anonymous recased
  have otherRead := parse_eq_ok_iff.mpr ⟨otherParsed, recasedGlob.placeholders_eq_nil⟩
  refine ⟨⟨glob, .insensitive⟩, ?_, recasedGlob, rfl⟩
  exact compile_eq_ok_iff.mpr ⟨rfl, otherRead, Engine.lenient_takes _⟩

theorem Recased.takes {branch other : Branch} (recased : branch.Recased other)
    (ignores : engine.IgnoresCase) (folded : branch.mode = .insensitive)
    (taken : engine.Takes branch) : engine.Takes other := by
  intro expression member
  rw [expressions, selectors, regex, recased.mode] at member
  rcases List.mem_append.mp member with named | whole
  · obtain ⟨selector, among, same⟩ := List.mem_filterMap.mp named
    cases selector with
    | exactly name => cases same
    | everywhere => cases same
    | named regex =>
        cases same
        obtain ⟨body, otherBody, rfl, recasedBody, inside⟩ :=
          Component.selectors_recased recased.glob.components among
        refine ignores body otherBody recasedBody (taken _ (List.mem_append_left _ ?_))
        rw [selectors, folded]
        exact List.mem_filterMap.mpr ⟨_, inside, rfl⟩
  · rw [List.mem_singleton.mp whole, Glob.regex_eq_under_case]
    refine ignores _ _ (Glob.regex_recased recased.glob) (taken _ (List.mem_append_right _ ?_))
    rw [regex, folded, Glob.regex_eq_under_case]
    exact List.mem_singleton_self _

theorem Recased.matches_path {branch other : Branch} (recased : branch.Recased other)
    {path otherPath : Text} (recasedPath : Text.Recased path otherPath)
    (matched : branch.matchesPath path = true) : other.matchesPath otherPath = true := by
  rw [matchesPath, regex, recased.mode]
  exact Glob.regex_found_recased recased.glob
    (Glob.subject_recased recased.glob recasedPath) matched

theorem any_matches_recased {branches others : List Branch}
    (recased : List.Forall₂ Recased branches others) {path otherPath : Text}
    (recasedPath : Text.Recased path otherPath)
    (matched : branches.any (·.matchesPath path) = true) :
    others.any (·.matchesPath otherPath) = true := by
  induction recased with
  | nil => exact matched
  | cons first _ ih =>
      rw [List.any_cons, Bool.or_eq_true] at matched ⊢
      exact matched.imp (first.matches_path recasedPath) ih

end Branch

namespace Pattern

theorem alternatives_recased {text other : Text} (recased : Text.Recased text other) :
    List.Forall₂ Text.Recased (alternatives text) (alternatives other) := by
  apply List.rel_filter _ (recased.split (equals_ignores_case (by decide)))
  intro piece otherPiece same
  cases same <;> simp

theorem map_m_compile_recased {mode : CaseMode} {texts others : List Text} {branches : List Branch}
    (compiled : texts.mapM (Branch.compile engine · mode) = .ok branches)
    (recased : List.Forall₂ Text.Recased texts others) :
    ∃ otherBranches, others.mapM (Branch.compile .lenient · .insensitive) = .ok otherBranches ∧
      List.Forall₂ Branch.Recased branches otherBranches := by
  have each := map_m_eq_ok_iff.mp compiled
  clear compiled
  suffices paired : ∃ otherBranches,
      List.Forall₂
        (fun text branch => Branch.compile .lenient text .insensitive = .ok branch) others
          otherBranches ∧
        List.Forall₂ Branch.Recased branches otherBranches by
    rcases paired with ⟨otherBranches, compiled, recasedBranches⟩
    exact ⟨otherBranches, map_m_eq_ok_iff.mpr compiled, recasedBranches⟩
  induction each generalizing others with
  | nil =>
      cases recased
      exact ⟨[], .nil, .nil⟩
  | cons first _ ih =>
      cases recased with | cons recasedText recased =>
      rcases Branch.compile_recased first recasedText with ⟨other, compiled, recasedBranch⟩
      rcases ih recased with ⟨others, compiledRest, recasedRest⟩
      exact ⟨other :: others, .cons compiled compiledRest, .cons recasedBranch recasedRest⟩

theorem compile_recased {text otherText : Text} {mode : CaseMode} {pattern : Pattern}
    (compiled : compile engine text mode = .ok pattern) (recased : Text.Recased text otherText) :
    ∃ other, compile .lenient otherText .insensitive = .ok other ∧
      (∀ branch ∈ other.branches, ∃ origin ∈ pattern.branches, origin.Recased branch) ∧
      ∀ path otherPath, Text.Recased path otherPath → pattern.matchesPath path = true →
        other.matchesPath otherPath = true := by
  rcases compile_eq_ok compiled with ⟨branches, mapped, nonempty, rfl⟩
  rcases map_m_compile_recased mapped (alternatives_recased recased) with
    ⟨others, otherMapped, recasedBranches⟩
  have otherNonempty : others ≠ [] := by
    intro none
    subst none
    exact nonempty (List.forall₂_nil_right_iff.mp recasedBranches)
  have members := Branch.mem_distinct_iff (Branch.parsed_of_compiled mapped)
  have otherMembers := Branch.mem_distinct_iff (Branch.parsed_of_compiled otherMapped)
  refine ⟨ofBranches others, compile_of_branches otherMapped otherNonempty, ?_, ?_⟩
  · intro branch member
    obtain ⟨origin, among, recasedBranch⟩ :=
      exists_of_paired recasedBranches.flip branch ((otherMembers branch).mp member)
    exact ⟨origin, (members origin).mpr among, recasedBranch⟩
  intro path otherPath recasedPath
  have normal := Path.normalize_recased recasedPath
  rw [of_branches_matches (Branch.parsed_of_compiled mapped),
    of_branches_matches (Branch.parsed_of_compiled otherMapped)]
  exact Branch.any_matches_recased recasedBranches normal

theorem matches_recased {text otherText : Text} {mode : CaseMode} {pattern other : Pattern}
    (compiled : compile engine text mode = .ok pattern)
    (otherCompiled : compile engine otherText .insensitive = .ok other)
    (recased : Text.Recased text otherText) {path otherPath : Text}
    (recasedPath : Text.Recased path otherPath) (matched : pattern.matchesPath path = true) :
    other.matchesPath otherPath = true := by
  obtain ⟨same, sameCompiled, -, matching⟩ := compile_recased compiled recased
  rw [(compile_eq_ok_iff_lenient.mp otherCompiled).1] at sameCompiled
  cases sameCompiled
  exact matching path otherPath recasedPath matched

theorem exists_compile_recased (ignores : engine.IgnoresCase) {text otherText : Text}
    {pattern : Pattern} (compiled : compile engine text .insensitive = .ok pattern)
    (recased : Text.Recased text otherText) :
    ∃ other, compile engine otherText .insensitive = .ok other := by
  obtain ⟨other, otherCompiled, origins, -⟩ := compile_recased compiled recased
  refine ⟨other, compile_eq_ok_iff_lenient.mpr ⟨otherCompiled, ?_⟩⟩
  intro branch member
  obtain ⟨origin, among, recasedBranch⟩ := origins branch member
  exact recasedBranch.takes ignores (compile_mode compiled origin among)
    (compile_takes_all compiled origin among)

theorem is_ok_iff {result : Except PatternError Pattern} :
    result.isOk = true ↔ ∃ pattern, result = .ok pattern := by
  cases result <;> simp [Except.isOk, Except.toBool]

/--
Without regard to case, texts that agree after folding are both accepted or both refused, and their
patterns give paths that agree after folding the same answer. Whatever a text matches with regard to
case, it still matches without, if the engine takes what is made of it then.
-/
theorem insensitive_blind_to_case (ignores : engine.IgnoresCase) :
    (∀ left right : Text, left.map CaseFold.fold = right.map CaseFold.fold →
      (compile engine left .insensitive).isOk = (compile engine right .insensitive).isOk ∧
      ∀ pattern other, compile engine left .insensitive = .ok pattern →
        compile engine right .insensitive = .ok other →
          ∀ path otherPath : Text, path.map CaseFold.fold = otherPath.map CaseFold.fold →
            pattern.matchesPath path = other.matchesPath otherPath) ∧
    ∀ text pattern, compile engine text .sensitive = .ok pattern →
      ∃ other, (∀ result, compile engine text .insensitive = .ok result ↔
          result = other ∧ engine.TakesAll other) ∧
        ∀ path, pattern.matchesPath path = true → other.matchesPath path = true := by
  constructor
  · intro left right same
    have recased := Text.recased_iff_map_fold.mpr same
    constructor
    · rw [Bool.eq_iff_iff, is_ok_iff, is_ok_iff]
      constructor
      · intro accepted
        obtain ⟨pattern, compiled⟩ := accepted
        exact exists_compile_recased ignores compiled recased
      · intro accepted
        obtain ⟨pattern, compiled⟩ := accepted
        exact exists_compile_recased ignores compiled recased.symm
    · intro pattern other compiled otherCompiled path otherPath samePath
      have recasedPath := Text.recased_iff_map_fold.mpr samePath
      rw [Bool.eq_iff_iff]
      exact ⟨matches_recased compiled otherCompiled recased recasedPath,
        matches_recased otherCompiled compiled recased.symm recasedPath.symm⟩
  · intro text pattern compiled
    obtain ⟨other, otherCompiled, -, matching⟩ :=
      compile_recased compiled (CaseMode.agrees_refl _ text)
    exact ⟨other, compile_eq_ok_iff_of_lenient otherCompiled,
      fun path => matching path path (CaseMode.agrees_refl _ path)⟩

/-- The texts `K*;*.s` with a kelvin sign and `k*;*.ſ`, for paths with letters of either case. -/
theorem insensitive_blind_to_case_kelvin :
    ∃ pattern other,
      compile .lenient ['\u212a', '*', ';', '*', '.', 's'] .insensitive = .ok pattern ∧
      compile .lenient ['k', '*', ';', '*', '.', '\u017f'] .insensitive = .ok other ∧
      pattern.matchesPath ['A', '.', 'S'] = other.matchesPath ['a', '.', 's'] := by
  have compiled : compile .lenient ['\u212a', '*', ';', '*', '.', 's'] .insensitive =
      .ok ⟨[⟨⟨false, [.compound [.literal ['\u212a'], .star]]⟩, .insensitive⟩,
        ⟨⟨false, [.compound [.star, .literal ['.', 's']]]⟩, .insensitive⟩]⟩ := by decide +kernel
  have otherCompiled : compile .lenient ['k', '*', ';', '*', '.', '\u017f'] .insensitive =
      .ok ⟨[⟨⟨false, [.compound [.literal ['k'], .star]]⟩, .insensitive⟩,
        ⟨⟨false, [.compound [.star, .literal ['.', '\u017f']]]⟩,
          .insensitive⟩]⟩ := by decide +kernel
  have ignores : Engine.lenient.IgnoresCase := fun _ _ _ _ => rfl
  have same := ((insensitive_blind_to_case ignores).1 _ _ (by decide +kernel)).2 _ _
    compiled otherCompiled
  exact ⟨_, _, compiled, otherCompiled, same _ _ (by decide +kernel)⟩

end Pattern

end PathGlob
