import PathGlob.Proofs.Pattern.Identity

/-!
# What an engine adds to the errors

A text is compiled unless it has a flaw of its own or the engine refuses an expression. Flaws do not
depend on the engine. A refusal quotes the alternative as it was written, so compiling the canonical
text instead fails for the same reason but quotes the canonical text of that alternative.
-/
namespace PathGlob

set_option autoImplicit false

def PatternError.IsRefusal (error : PatternError) : Prop :=
  ∃ text reason, error = .malformed text (.refused reason)

def Engine.refusalOf? (engine : Engine) (branches : List Branch) : Option PatternError :=
  branches.findSome? fun branch =>
    (engine.refusalAmong? branch.expressions).map fun reason =>
      .malformed branch.text (.refused reason)

section

variable {Item Other Last Error : Type} {f : Item → Except Error Other}
    {g : Item → Except Error Last}

theorem map_m_cons_eq_error_iff {item : Item} {items : List Item} {error : Error} :
    (item :: items).mapM f = .error error ↔
      f item = .error error ∨ ∃ other, f item = .ok other ∧ items.mapM f = .error error := by
  rw [List.mapM_cons]
  cases f item with
  | error other => simp [bind, Except.bind]
  | ok other => cases items.mapM f <;> simp [bind, Except.bind, pure, Except.pure]

/--
Two constructions fail alike in a row if the second fails just where the first does, and alike.
-/
theorem map_m_eq_error_of {items : List Item} {error : Error}
    (done : ∀ item ∈ items, ∀ other, f item = .ok other → ∃ last, g item = .ok last)
    (alike : ∀ item ∈ items, f item = .error error → g item = .error error)
    (failed : items.mapM f = .error error) : items.mapM g = .error error := by
  induction items with
  | nil => cases failed
  | cons item items ih =>
      obtain ⟨doneFirst, doneRest⟩ := List.forall_mem_cons.mp done
      obtain ⟨alikeFirst, alikeRest⟩ := List.forall_mem_cons.mp alike
      rw [map_m_cons_eq_error_iff] at failed ⊢
      rcases failed with here | ⟨other, first, later⟩
      · exact .inl (alikeFirst here)
      · obtain ⟨last, also⟩ := doneFirst other first
        exact .inr ⟨last, also, ih doneRest alikeRest later⟩

end

variable {engine : Engine}

namespace Branch

variable {text : Text} {mode : CaseMode} {branch : Branch} {error : PatternError}

theorem compile_of_flawed (flawed : parse text = .error error) :
    compile engine text mode = .error error := by
  rw [compile, flawed]
  rfl

theorem compile_lenient (text : Text) (mode : CaseMode) :
    compile .lenient text mode = (parse text).map (Branch.mk · mode) := by
  cases parsed : parse text with
  | error error => exact compile_of_flawed parsed
  | ok glob => exact compile_eq_ok_iff.mpr ⟨rfl, parsed, Engine.lenient_takes _⟩

theorem compile_of_refused {glob : Glob} {reason : String} (parsed : parse text = .ok glob)
    (refused : engine.refusalAmong? (⟨glob, mode⟩ : Branch).expressions = some reason) :
    compile engine text mode = .error (.malformed text (.refused reason)) := by
  rw [compile, parsed]
  dsimp only [bind, Except.bind]
  rw [refused]
  rfl

theorem compile_of_taken {glob : Glob} (parsed : parse text = .ok glob)
    (taken : engine.refusalAmong? (⟨glob, mode⟩ : Branch).expressions = none) :
    compile engine text mode = .ok ⟨glob, mode⟩ :=
  compile_eq_ok_iff.mpr ⟨rfl, parsed, (engine.refusal_among_eq_none_iff _).mp taken⟩

theorem parse_of_compile_flawed (failed : compile engine text mode = .error error)
    (flawed : ¬ error.IsRefusal) : parse text = .error error := by
  cases parsed : parse text with
  | error other => rw [Except.error.inj ((compile_of_flawed parsed).symm.trans failed)]
  | ok glob =>
      cases refusal : engine.refusalAmong? (⟨glob, mode⟩ : Branch).expressions with
      | some reason =>
          have refused := compile_of_refused parsed refusal
          exact absurd ⟨text, reason, Except.error.inj (failed.symm.trans refused)⟩ flawed
      | none =>
          rw [compile_of_taken parsed refusal] at failed
          cases failed

theorem refused_of_map_m {texts : List Text} {branches : List Branch} {reason : String}
    (read : texts.mapM (compile .lenient · mode) = .ok branches)
    (failed : texts.mapM (compile engine · mode) = .error (.malformed text (.refused reason))) :
    ∃ glob, parse text = .ok glob ∧
      engine.refusalOf? branches = some (.malformed glob.text (.refused reason)) := by
  have paired := map_m_eq_ok_iff.mp read
  clear read
  induction paired with
  | nil => cases failed
  | @cons first branch texts branches compiled paired ih =>
      obtain ⟨rfl, parsed, -⟩ := compile_eq_ok_iff.mp compiled
      rw [Engine.refusalOf?, List.findSome?_cons]
      rw [map_m_cons_eq_error_iff] at failed
      cases refusal : engine.refusalAmong? branch.expressions with
      | some other =>
          rw [compile_of_refused parsed refusal] at failed
          rcases failed with same | ⟨_, taken, -⟩
          · cases same
            exact ⟨branch.glob, parsed, rfl⟩
          · cases taken
      | none =>
          rw [compile_of_taken parsed refusal] at failed
          rcases failed with refused | ⟨_, -, later⟩
          · cases refused
          · exact ih later

theorem map_m_compile_text_of_refused {branches : List Branch}
    (parsed : ∀ branch ∈ branches, branch.Parsed)
    (uniform : ∀ branch ∈ branches, branch.mode = mode)
    (refused : engine.refusalOf? branches = some error) :
    (branches.map Branch.text).mapM (compile engine · mode) = .error error := by
  induction branches with
  | nil => cases refused
  | cons branch branches ih =>
      obtain ⟨parsedFirst, parsedRest⟩ := List.forall_mem_cons.mp parsed
      obtain ⟨rfl, uniformRest⟩ := List.forall_mem_cons.mp uniform
      rw [Engine.refusalOf?, List.findSome?_cons] at refused
      rw [List.map_cons, map_m_cons_eq_error_iff]
      cases refusal : engine.refusalAmong? branch.expressions with
      | some reason =>
          rw [refusal] at refused
          rw [compile_of_refused parsedFirst.parse_text refusal]
          exact .inl (congrArg Except.error (Option.some.inj refused))
      | none =>
          rw [refusal] at refused
          have taken := compile_of_taken parsedFirst.parse_text refusal
          exact .inr ⟨_, taken, ih parsedRest uniformRest refused⟩

theorem refusal_of_distinct {branches : List Branch} (parsed : ∀ branch ∈ branches, branch.Parsed) :
    engine.refusalOf? (distinct branches) = engine.refusalOf? branches := by
  apply find_some_distinctBy
  intro left isLeft right isRight same
  rw [(parsed left isLeft).eq_of_identity (parsed right isRight) same]

end Branch

namespace Pattern

variable {text piece : Text} {mode : CaseMode} {pattern : Pattern} {error : PatternError}

/-- The text that fetching looks up is the text of the pattern, or fails as compiling does. -/
theorem canonical_text_eq (text : Text) (mode : CaseMode) :
    canonicalText text = (compile .lenient text mode).map Pattern.text := by
  have mapped : (alternatives text).mapM (Branch.compile .lenient · mode) =
      ((alternatives text).mapM Branch.parse).map (List.map (Branch.mk · mode)) := by
    simp only [Branch.compile_lenient, map_m_map]
  rw [canonicalText, compile, mapped]
  cases parsed : (alternatives text).mapM Branch.parse with
  | error error => rfl
  | ok globs =>
      cases globs with
      | nil => rfl
      | cons glob globs =>
          have agree : ∀ left ∈ (glob :: globs).map (Branch.mk · mode),
              ∀ right ∈ (glob :: globs).map (Branch.mk · mode),
                left.identity = right.identity ↔ left.text = right.text := by
            intro left isLeft right isRight
            obtain ⟨_, _, rfl⟩ := List.mem_map.mp isLeft
            obtain ⟨_, _, rfl⟩ := List.mem_map.mp isRight
            simp [Branch.identity]
          have texts : (distinctBy Branch.identity ((glob :: globs).map (Branch.mk · mode))).map
              Branch.text =
                distinctBy id (((glob :: globs).map (Branch.mk · mode)).map Branch.text) :=
            map_distinctBy agree
          rw [List.map_map] at texts
          exact congrArg (fun texts => Except.ok (Text.joinWith ';' texts)) texts.symm

theorem compile_eq_error_iff : compile engine text mode = .error error ↔
    (alternatives text).mapM (Branch.compile engine · mode) = .error error ∨
      (alternatives text).mapM (Branch.compile engine · mode) = .ok [] ∧
        error = .malformed text .empty := by
  rw [compile]
  cases mapped : (alternatives text).mapM (Branch.compile engine · mode) with
  | error other => simp [bind, Except.bind]
  | ok branches =>
      cases branches with
      | nil => simp [bind, Except.bind, throw, throwThe, MonadExceptOf.throw, eq_comm]
      | cons branch branches => simp [bind, Except.bind, pure, Except.pure]

/-- An engine adds refusals to the errors and changes none. -/
theorem lenient_of_flawed (failed : compile engine text mode = .error error)
    (flawed : ¬ error.IsRefusal) : compile .lenient text mode = .error error := by
  rw [compile_eq_error_iff] at failed ⊢
  rcases failed with failed | ⟨none, rfl⟩
  · left
    apply map_m_eq_error_of _ _ failed
    · intro alternative _ branch compiled
      obtain ⟨rfl, parsed, -⟩ := Branch.compile_eq_ok_iff.mp compiled
      exact ⟨branch, Branch.compile_eq_ok_iff.mpr ⟨rfl, parsed, Engine.lenient_takes branch⟩⟩
    · intro alternative _ failed
      exact Branch.compile_of_flawed (Branch.parse_of_compile_flawed failed flawed)
  · exact .inr ⟨(map_m_compile_eq_ok_iff.mp none).1, rfl⟩

/-- The canonical text spells the pattern with any engine that does not refuse it. -/
theorem compile_text_eq_ok_iff (read : compile .lenient text mode = .ok pattern)
    (result : Pattern) :
    compile engine pattern.text mode = .ok result ↔ compile engine text mode = .ok result := by
  have again := (compile_proper read).compile_text (compile_mode read) (Engine.lenient_takes_all _)
  rw [compile_eq_ok_iff_of_lenient read, compile_eq_ok_iff_of_lenient again]

/-- Compiled from its canonical text, a refused pattern is refused for the same reason. -/
theorem compile_text_of_refused {reason : String} (read : compile .lenient text mode = .ok pattern)
    (failed : compile engine text mode = .error (.malformed piece (.refused reason))) :
    ∃ glob, Branch.parse piece = .ok glob ∧
      compile engine pattern.text mode = .error (.malformed glob.text (.refused reason)) := by
  have proper := compile_proper read
  have uniform := compile_mode read
  obtain ⟨branches, mapped, -, rfl⟩ := compile_eq_ok read
  rcases compile_eq_error_iff.mp failed with stopped | ⟨-, empty⟩
  · obtain ⟨glob, parsed, refused⟩ := Branch.refused_of_map_m mapped stopped
    refine ⟨glob, parsed, compile_eq_error_iff.mpr (.inl ?_)⟩
    rw [proper.alternatives_text]
    apply Branch.map_m_compile_text_of_refused proper.parsed uniform
    rw [ofBranches, Branch.refusal_of_distinct (Branch.parsed_of_compiled mapped)]
    exact refused
  · cases empty

end Pattern

end PathGlob
