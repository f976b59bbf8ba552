import PathGlob.Proofs.Glob.Nameless
import PathGlob.Proofs.Template.Expression

/-!
# What keeps a template from being built

A template is built from a glob and from two texts made of it: its written expression and the text
of the plain glob, which is read anew. Both can be read, so an engine that refuses nothing it can
read refuses neither, and a template fails for what was written: the text is no glob, or a name is
wrong.
-/
namespace PathGlob

set_option autoImplicit false

open Regex (readNamed)

/-- Whether an engine takes all that can be read, however large it is. -/
structure Engine.Unlimited (engine : Engine) : Prop where
  plain : ∀ text expression, Regex.read text = some expression → engine.refusal? text = none
  named : ∀ text names expression, readNamed text = some (names, expression) →
    engine.refusal? text = none

def Engine.reading : Engine where
  refusal? text :=
    if (Regex.read text).isSome || (readNamed text).isSome then none else some "regex parse error"

theorem Engine.reading_unlimited : reading.Unlimited where
  plain := fun text expression read => by simp [reading, read]
  named := fun text names expression read => by simp [reading, read]

theorem Engine.Unlimited.takes {engine : Engine} (unlimited : engine.Unlimited) (branch : Branch) :
    engine.Takes branch := by
  intro expression member
  rcases List.mem_append.mp member with named | whole
  · obtain ⟨selector, among, same⟩ := List.mem_filterMap.mp named
    cases selector with
    | exactly name => cases same
    | everywhere => cases same
    | named regex =>
        cases same
        obtain ⟨isLast, parts, rfl⟩ := Component.name_regex_of_selector among
        obtain ⟨_, read⟩ := Component.read_name_regex branch.mode isLast parts
        exact unlimited.plain _ _ read.read_print
  · rw [List.mem_singleton.mp whole]
    obtain ⟨_, read⟩ := branch.glob.read_regex branch.mode
    exact unlimited.plain _ _ read.read_print

namespace Template

variable {engine : Engine} {text : Text} {mode : CaseMode} {template : Template}

theorem compile_of_unlimited (unlimited : engine.Unlimited) {glob : Glob}
    (parsed : Glob.parse text = .ok glob) (wellNamed : WellNamed glob.placeholders) :
    compile engine text mode = .ok ⟨text, glob, mode, ⟨[⟨glob.anonymous, mode⟩]⟩⟩ := by
  obtain ⟨_, read, -⟩ := Glob.read_named_regex (Glob.parse_proper parsed) wellNamed mode
  exact compile_of_well_named parsed wellNamed (unlimited.named _ _ _ read) (unlimited.takes _)

theorem compile_is_ok_iff (unlimited : engine.Unlimited) (text : Text) (mode : CaseMode) :
    (∃ template, compile engine text mode = .ok template) ↔
      ∃ glob, Glob.parse text = .ok glob ∧ WellNamed glob.placeholders := by
  constructor
  · rintro ⟨template, compiled⟩
    obtain ⟨parsed, flawless, -⟩ := compile_eq_ok compiled
    exact ⟨template.glob, parsed, (name_flaw_eq_none_iff _).mp flawless⟩
  · rintro ⟨glob, parsed, wellNamed⟩
    exact ⟨_, compile_of_unlimited unlimited parsed wellNamed⟩

theorem compile_eq_error_iff (unlimited : engine.Unlimited) (text : Text) (mode : CaseMode)
    (error : PatternError) :
    compile engine text mode = .error error ↔ Glob.parse text = .error error ∨
      ∃ glob flaw, Glob.parse text = .ok glob ∧ FirstFlaw glob.placeholders flaw ∧
        error = .malformed text flaw := by
  constructor
  · intro failed
    cases parsed : Glob.parse text with
    | error reason =>
        rw [compile_of_rejected parsed] at failed
        exact .inl (congrArg Except.error (Except.error.inj failed))
    | ok glob =>
        cases checked : nameFlaw? [] glob.placeholders with
        | none =>
            have wellNamed := (name_flaw_eq_none_iff _).mp checked
            rw [compile_of_unlimited unlimited parsed wellNamed] at failed
            cases failed
        | some flaw =>
            have first := (name_flaw_eq_some_iff _ _).mp checked
            rw [compile_of_first_flaw parsed first] at failed
            exact .inr ⟨glob, flaw, rfl, first, (Except.error.inj failed).symm⟩
  · rintro (rejected | ⟨glob, flaw, parsed, first, rfl⟩)
    · exact compile_of_rejected rejected
    · exact compile_of_first_flaw parsed first

theorem read_expression (compiled : compile engine text mode = .ok template) :
    ∃ expression, Regex.readNamed template.regex.print = some (template.names, expression) ∧
      ∀ path, (template.match? path).isSome =
        expression.found (template.glob.subject (Path.normalize path)) := by
  obtain ⟨parsed, flawless, -⟩ := compile_eq_ok compiled
  obtain ⟨expression, read, takes⟩ := Glob.read_named_regex (Glob.parse_canonical parsed).proper
    ((name_flaw_eq_none_iff _).mp flawless) template.mode
  refine ⟨expression, read, fun path => ?_⟩
  rw [match_is_some, Bool.eq_iff_iff]
  exact Regex.found_congr _ takes.symm

theorem text_plain (compiled : compile engine text mode = .ok template) :
    template.plain.text = template.glob.writePlain := by
  have proper := compile_proper compiled
  rw [Pattern.text, proper.plain, proper.canonical.proper.write_plain_eq_text]
  exact (Pattern.text_single _).trans proper.parsed.text_eq

/--
With an engine that takes all it can read, a template is built exactly from a glob with names that
do not start with a digit and differ from each other. Otherwise the reason is the one for which the
text is no glob, or what is wrong with the first name that is. The expressions of a template can be
read, its own with a group for each name, and the text of its plain glob spells a glob without
placeholders, in which each component has its `*` in their place.
-/
theorem compile_fails_for_names_only (unlimited : engine.Unlimited) (text : Text)
    (mode : CaseMode) :
    ((∃ template, compile engine text mode = .ok template) ↔
        ∃ glob, Glob.parse text = .ok glob ∧ WellNamed glob.placeholders) ∧
      (∀ error, compile engine text mode = .error error ↔ Glob.parse text = .error error ∨
        ∃ glob flaw, Glob.parse text = .ok glob ∧ FirstFlaw glob.placeholders flaw ∧
          error = .malformed text flaw) ∧
      ∀ template, compile engine text mode = .ok template →
        Glob.parse text = .ok template.glob ∧
        (∃ expression, Regex.readNamed template.regex.print = some (template.names, expression) ∧
          ∀ path, (template.match? path).isSome =
            expression.found (template.glob.subject (Path.normalize path))) ∧
        template.plain.Readable ∧
        ∃ plain, Glob.parse template.glob.writePlain = .ok plain ∧ plain.placeholders = [] ∧
          plain.rooted = template.glob.rooted ∧
          List.Forall₂ Component.PlainOf template.glob.components plain.components ∧
          Pattern.compile engine template.glob.writePlain mode = .ok template.plain ∧
          template.plain.text = template.glob.writePlain := by
  refine ⟨compile_is_ok_iff unlimited text mode, compile_eq_error_iff unlimited text mode,
    fun template compiled => ?_⟩
  obtain ⟨parsed, -, -, plain⟩ := compile_eq_ok compiled
  have canonical := Glob.parse_canonical parsed
  have written : template.glob.writePlain = template.glob.text :=
    canonical.proper.write_plain_eq_text
  refine ⟨parsed, read_expression compiled, template.plain.readable, template.glob.anonymous, ?_,
    template.glob.placeholders_anonymous, rfl, template.glob.plain_of_anonymous, ?_,
    text_plain compiled⟩
  · rw [written]
    exact canonical.parse_text
  · rwa [written]

/--
The template `/{a}{b}.*/x[c]{_1}`, and the text `{a}/{1}{a}`, whose second name is wrong before its
third.
-/
theorem compile_fails_for_names_only_both :
    (∃ template, compile .reading
      ['/', '{', 'a', '}', '{', 'b', '}', '.', '*', '/', 'x', '[', 'c', ']', '{', '_', '1', '}']
        .insensitive = .ok template ∧
      (∃ expression, Regex.readNamed template.regex.print =
        some ([['a'], ['b'], ['_', '1']], expression)) ∧
      template.plain.text = ['/', '*', '.', '*', '/', 'x', '[', 'c', ']', '*'] ∧
      ∃ plain, Glob.parse ['/', '*', '.', '*', '/', 'x', '[', 'c', ']', '*'] = .ok plain ∧
        plain.placeholders = [] ∧ plain.rooted = true ∧
        List.Forall₂ Component.PlainOf template.glob.components plain.components) ∧
    compile .reading ['{', 'a', '}', '/', '{', '1', '}', '{', 'a', '}'] .sensitive =
      .error
        (.malformed ['{', 'a', '}', '/', '{', '1', '}', '{', 'a', '}'] (.digitFirst ['1'])) := by
  have parsed :
      Glob.parse
        ['/', '{', 'a', '}', '{', 'b', '}', '.', '*', '/', 'x', '[', 'c', ']', '{', '_', '1', '}'] =
      .ok ⟨true, [.compound [.placeholder ['a'], .placeholder ['b'], .literal ['.'], .star],
        .compound [.literal ['x'], .oneOf ['c'], .placeholder ['_', '1']]]⟩ := by decide +kernel
  have parsedOther : Glob.parse ['{', 'a', '}', '/', '{', '1', '}', '{', 'a', '}'] =
      .ok ⟨false, [.compound [.placeholder ['a']],
        .compound [.placeholder ['1'], .placeholder ['a']]]⟩ := by
    decide +kernel
  constructor
  · obtain ⟨built, -, properties⟩ := compile_fails_for_names_only Engine.reading_unlimited
      ['/', '{', 'a', '}', '{', 'b', '}', '.', '*', '/', 'x', '[', 'c', ']', '{', '_', '1', '}']
        .insensitive
    obtain ⟨template, compiled⟩ := built.mpr ⟨_, parsed, by decide, by decide⟩
    obtain ⟨same, ⟨expression, read, -⟩, -, plain, spelled, noNames, rooted, alike, -, text⟩ :=
      properties template compiled
    have glob := Except.ok.inj (same.symm.trans parsed)
    have names : template.names = [['a'], ['b'], ['_', '1']] := by
      rw [Template.names, glob]
      decide
    have written :
        template.glob.writePlain = ['/', '*', '.', '*', '/', 'x', '[', 'c', ']', '*'] := by
      rw [glob]
      decide
    rw [names] at read
    rw [written] at spelled text
    exact ⟨template, compiled, ⟨expression, read⟩, text, plain, spelled, noNames,
      rooted.trans (congrArg _ glob), alike⟩
  · refine ((compile_fails_for_names_only Engine.reading_unlimited _ _).2.1 _).mpr
      (.inr ⟨_, _, parsedOther, ?_, rfl⟩)
    exact ⟨[['a']], ['1'], [['a']], rfl, ⟨by decide, by decide⟩, .digitFirst (by decide)⟩

end Template

end PathGlob
