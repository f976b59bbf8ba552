import PathGlob.Proofs.Template.Cover

/-!
# Names of placeholders

The names of a template are checked from left to right against those that came before. The check
passes if no name starts with a digit and no two are the same. Otherwise it tells of the first name
that is wrong behind names that are not, and of a repeated name that starts with a digit it tells
the digit.
-/
namespace PathGlob

set_option autoImplicit false

namespace Template

structure Fits (earlier : List Text) (name : Text) : Prop where
  noDigit : name.head?.any Char.isDigit = false
  fresh : name ∉ earlier

structure WellNamed (names : List Text) : Prop where
  distinct : names.Nodup
  noDigit : ∀ name ∈ names, name.head?.any Char.isDigit = false

/-- What is wrong with a name behind others. A digit is told before a repetition. -/
inductive Offends (earlier : List Text) (name : Text) : Flaw → Prop where
  | digitFirst (digit : name.head?.any Char.isDigit = true) :
      Offends earlier name (.digitFirst name)
  | repeated (noDigit : name.head?.any Char.isDigit = false) (used : name ∈ earlier) :
      Offends earlier name (.repeatedPlaceholder name)

def FirstFlaw (names : List Text) (flaw : Flaw) : Prop :=
  ∃ earlier name later,
    names = earlier ++ name :: later ∧ WellNamed earlier ∧ Offends earlier name flaw

theorem well_named_concat (names : List Text) (name : Text) :
    WellNamed (names ++ [name]) ↔ WellNamed names ∧ Fits names name := by
  constructor
  · intro wellNamed
    have distinct := List.nodup_append.mp wellNamed.distinct
    obtain ⟨noDigit, last⟩ := List.forall_mem_append.mp wellNamed.noDigit
    exact ⟨⟨distinct.1, noDigit⟩, last name List.mem_cons_self,
      fun used => distinct.2.2 name used name List.mem_cons_self rfl⟩
  · rintro ⟨wellNamed, fits⟩
    constructor
    · rw [← List.concat_eq_append]
      exact wellNamed.distinct.concat fits.fresh
    · rw [List.forall_mem_append, List.forall_mem_singleton]
      exact ⟨wellNamed.noDigit, fits.noDigit⟩

theorem first_flaw_concat (names : List Text) (name : Text) (flaw : Flaw) :
    FirstFlaw (names ++ [name]) flaw ↔
    FirstFlaw names flaw ∨ WellNamed names ∧ Offends names name flaw := by
  constructor
  · rintro ⟨earlier, wrong, later, same, wellNamed, offends⟩
    rcases List.eq_nil_or_concat' later with rfl | ⟨later, last, rfl⟩
    · obtain ⟨rfl, ends⟩ := List.append_inj' same rfl
      cases ends
      exact .inr ⟨wellNamed, offends⟩
    · rw [← List.cons_append, ← List.append_assoc] at same
      obtain ⟨rfl, -⟩ := List.append_inj' same rfl
      exact .inl ⟨earlier, wrong, later, rfl, wellNamed, offends⟩
  · rintro (⟨earlier, wrong, later, rfl, wellNamed, offends⟩ | ⟨wellNamed, offends⟩)
    · exact ⟨earlier, wrong, later ++ [name], by simp, wellNamed, offends⟩
    · exact ⟨names, name, [], rfl, wellNamed, offends⟩

theorem name_flaw_append (seen front back : List Text) :
    nameFlaw? seen (front ++ back) =
      (nameFlaw? seen front).or (nameFlaw? (front.reverse ++ seen) back) := by
  induction front generalizing seen with
  | nil => rfl
  | cons name front ih =>
      rw [List.cons_append, nameFlaw?, nameFlaw?, ih, List.reverse_cons, List.append_assoc,
        List.singleton_append]
      split
      · rfl
      · split <;> rfl

theorem name_flaw_next_eq_none_iff (earlier : List Text) (name : Text) :
    nameFlaw? earlier.reverse [name] = none ↔ Fits earlier name := by
  rw [nameFlaw?, nameFlaw?]
  constructor
  · intro flawless
    split at flawless
    · cases flawless
    · split at flawless
      · cases flawless
      · rename_i noDigit fresh
        exact ⟨Bool.eq_false_iff.mpr noDigit, by simpa using fresh⟩
  · intro fits
    rw [if_neg (Bool.eq_false_iff.mp fits.noDigit), if_neg (by simpa using fits.fresh)]

theorem name_flaw_next_eq_some_iff (earlier : List Text) (name : Text) (flaw : Flaw) :
    nameFlaw? earlier.reverse [name] = some flaw ↔ Offends earlier name flaw := by
  rw [nameFlaw?, nameFlaw?]
  constructor
  · intro wrong
    split at wrong
    · rename_i digit
      cases wrong
      exact .digitFirst digit
    · rename_i noDigit
      split at wrong
      · rename_i used
        cases wrong
        exact .repeated (Bool.eq_false_iff.mpr noDigit) (by simpa using used)
      · cases wrong
  · intro offends
    cases offends with
    | digitFirst digit => rw [if_pos digit]
    | repeated noDigit used =>
        rw [if_neg (Bool.eq_false_iff.mp noDigit), if_pos (by simpa using used)]

theorem name_flaw_eq_none_iff (names : List Text) :
    nameFlaw? [] names = none ↔ WellNamed names := by
  induction names using List.reverseRecOn with
  | nil => exact iff_of_true rfl ⟨List.nodup_nil, List.forall_mem_nil _⟩
  | append_singleton names name ih =>
      rw [name_flaw_append, Option.or_eq_none_iff, ih, List.append_nil, name_flaw_next_eq_none_iff,
        well_named_concat]

theorem name_flaw_eq_some_iff (names : List Text) (flaw : Flaw) :
    nameFlaw? [] names = some flaw ↔ FirstFlaw names flaw := by
  induction names using List.reverseRecOn with
  | nil =>
      constructor
      · intro impossible
        cases impossible
      · rintro ⟨earlier, name, later, same, -⟩
        simp at same
  | append_singleton names name ih =>
      rw [name_flaw_append, Option.or_eq_some_iff, ih, name_flaw_eq_none_iff, List.append_nil,
        name_flaw_next_eq_some_iff, first_flaw_concat]

section Compiling

variable {engine : Engine} {text : Text} {mode : CaseMode} {glob : Glob}

theorem compile_of_rejected {error : PatternError} (rejected : Glob.parse text = .error error) :
    compile engine text mode = .error error := by
  rw [compile, rejected]
  rfl

theorem compile_of_first_flaw {flaw : Flaw} (parsed : Glob.parse text = .ok glob)
    (first : FirstFlaw glob.placeholders flaw) :
    compile engine text mode = .error (.malformed text flaw) := by
  have found := (name_flaw_eq_some_iff glob.placeholders flaw).mpr first
  simp only [compile, parsed, bind, Except.bind, flaw?, found]
  rfl

/--
Besides the names only the engine can find something wrong: the plain text of a glob spells a
pattern of one branch.
-/
theorem compile_of_well_named (parsed : Glob.parse text = .ok glob)
    (wellNamed : WellNamed glob.placeholders)
    (takenNamed : engine.refusal? (glob.regex mode .named).print = none)
    (taken : engine.Takes ⟨glob.anonymous, mode⟩) :
    compile engine text mode = .ok ⟨text, glob, mode, ⟨[⟨glob.anonymous, mode⟩]⟩⟩ := by
  have flawless : flaw? engine glob mode = none := by
    rw [flaw?, (name_flaw_eq_none_iff glob.placeholders).mpr wellNamed, takenNamed]
    rfl
  have parsedPlain := (Glob.parse_canonical parsed).parsed_anonymous mode
  have plain : Pattern.compile engine glob.text mode = .ok ⟨[⟨glob.anonymous, mode⟩]⟩ := by
    have spelled := (Pattern.Proper.single parsedPlain).compile_text
      (List.forall_mem_singleton.mpr rfl) (List.forall_mem_singleton.mpr taken)
    rwa [Pattern.text_single, parsedPlain.text_eq] at spelled
  simp only [compile, parsed, bind, Except.bind, flawless, plain]
  rfl

end Compiling

end Template

end PathGlob
