import PathGlob.Proofs.Glob.Division
import PathGlob.Proofs.Regex.Backtracking

/-!
# The division that the search prefers

Following the expressions of a glob tries the divisions of the segments in their order, so what
comes first is what the first division reports. `FirstOf` says this of one outcome. It is put
together along the expressions: an earlier choice is tried with everything that can follow it before
a later one.
-/
namespace PathGlob

set_option autoImplicit false

/--
Whether an outcome is what the first of some candidates results in, one that comes before all
others. There is no outcome exactly if there are no candidates.
-/
def FirstOf {Candidate Result : Type} (before : Candidate → Candidate → Prop)
    (candidate : Candidate → Prop) (result : Candidate → Result) : Option Result → Prop
  | none => ∀ one, ¬candidate one
  | some outcome => ∃ one, candidate one ∧ result one = outcome ∧
      ∀ other, candidate other → other = one ∨ before one other

namespace FirstOf

variable {Candidate Other Result : Type} {before : Candidate → Candidate → Prop}
  {candidate wanted : Candidate → Prop} {result : Candidate → Result} {outcome : Option Result}

theorem congr (first : FirstOf before candidate result outcome)
    (same : ∀ one, candidate one ↔ wanted one) :
    FirstOf before wanted result outcome := by
  rwa [← funext fun one => propext (same one)]

theorem of_eq_none (absent : outcome = none) (none : ∀ one, ¬candidate one) :
    FirstOf before candidate result outcome := by
  subst absent
  exact none

theorem eq_none (first : FirstOf before candidate result outcome) (absent : ∀ one, ¬candidate one) :
    outcome = none := by
  cases outcome with
  | none => rfl
  | some outcome =>
      obtain ⟨one, fits, -⟩ := first
      exact absurd fits (absent one)

/--
One alternative after the other, if the candidates of the first come before those of the second.
-/
theorem or {second : Option Result} (one : FirstOf before candidate result outcome)
    (two : FirstOf before wanted result second)
    (earlier : ∀ left right, candidate left → wanted right → before left right) :
    FirstOf before (fun each => candidate each ∨ wanted each) result (outcome.or second) := by
  cases outcome with
  | none => exact two.congr fun each => (or_iff_right (one each)).symm
  | some outcome =>
      obtain ⟨first, fits, same, preferred⟩ := one
      refine ⟨first, .inl fits, same, fun other either => ?_⟩
      rcases either with inFirst | inSecond
      · exact preferred other inFirst
      · exact .inr (earlier first other fits inSecond)

theorem image {beforeOther : Other → Other → Prop} (resultOther : Other → Result)
    (embed : Candidate → Other)
    (keeps : ∀ left right, before left right → beforeOther (embed left) (embed right))
    (first : FirstOf before candidate (fun one => resultOther (embed one)) outcome) :
    FirstOf beforeOther
      (fun other => ∃ one, candidate one ∧ other = embed one) resultOther outcome := by
  cases outcome with
  | none =>
      rintro other ⟨one, fits, -⟩
      exact first one fits
  | some outcome =>
      obtain ⟨one, fits, same, preferred⟩ := first
      refine ⟨embed one, ⟨one, fits, rfl⟩, same, ?_⟩
      rintro other ⟨origin, inCandidates, rfl⟩
      exact (preferred origin inCandidates).imp (congrArg embed) (keeps one origin)

end FirstOf

namespace Regex

open PathGlob.Path PathGlob.Glob

variable {mode : CaseMode} {Candidate Result : Type} {before : Candidate → Candidate → Prop}
  {result : Candidate → Result} {next : Thread → Option Result} {thread : Thread}

theorem find_cons_or (next : Thread → Option Result) (threads : List Thread) :
    (thread :: threads).findSome? next = (next thread).or (threads.findSome? next) := by
  rw [List.findSome?_cons]
  cases next thread <;> rfl

/-- An expression that can take one text only leaves no choice. -/
theorem find_just_first {regex : Regex} (nameless : regex.Nameless) {language : Text → Prop}
    (takes : TakesJust mode regex language)
    (alone : ∀ taken other left right, thread.rest = taken ++ left → thread.rest = other ++ right →
      language taken → language other → taken.length = other.length)
    (candidate : Text → Candidate → Prop)
    (each : ∀ taken left, thread.rest = taken ++ left → language taken →
      FirstOf before (candidate taken) result (next (thread.skip taken.length))) :
    FirstOf before
      (fun one => ∃ taken left, thread.rest = taken ++ left ∧ language taken ∧ candidate taken one)
      result ((advance mode regex thread).findSome? next) := by
  by_cases some : ∃ taken left, thread.rest = taken ++ left ∧ language taken
  · obtain ⟨taken, left, rest, spoken⟩ := some
    have member : thread.skip taken.length ∈ advance mode regex thread :=
      (mem_advance_iff nameless).mpr ⟨taken, left, rest, (takes _ _ _).mpr spoken, rfl⟩
    have same : ∀ other ∈ advance mode regex thread, other = thread.skip taken.length := by
      intro other among
      obtain ⟨text, after, otherRest, reads, rfl⟩ := (mem_advance_iff nameless).mp among
      rw [alone _ _ _ _ otherRest rest ((takes _ _ _).mp reads) spoken]
    rw [find_same next member same]
    refine (each taken left rest spoken).congr fun one =>
      ⟨fun fits => ⟨taken, left, rest, spoken, fits⟩, ?_⟩
    rintro ⟨other, after, otherRest, otherSpoken, fits⟩
    have lengths := alone _ _ _ _ otherRest rest otherSpoken spoken
    rwa [(List.append_inj (otherRest.symm.trans rest) lengths).1] at fits
  · have empty : advance mode regex thread = [] := by
      rw [List.eq_nil_iff_forall_not_mem]
      intro later member
      obtain ⟨taken, left, rest, reads, -⟩ := (mem_advance_iff nameless).mp member
      exact some ⟨taken, left, rest, (takes _ _ _).mp reads⟩
    rw [empty]
    rintro one ⟨taken, left, rest, spoken, -⟩
    exact some ⟨taken, left, rest, spoken⟩

theorem find_finish_first {regex : Regex} (nameless : regex.Nameless)
    (result : Candidate → Captures) (choice : Candidate)
    (reports : result choice = thread.captures) :
    FirstOf before (fun one => one = choice ∧ Takes mode regex thread.front thread.rest []) result
      ((advance mode regex thread).findSome? finish) := by
  cases found : (advance mode regex thread).findSome? finish with
  | none =>
      rintro one ⟨-, takes⟩
      rw [List.findSome?_eq_none_iff] at found
      have member : thread.skip thread.rest.length ∈ advance mode regex thread :=
        (mem_advance_iff nameless).mpr ⟨_, [], (List.append_nil _).symm, takes, rfl⟩
      have ends := found _ member
      simp [finish] at ends
  | some captures =>
      obtain ⟨later, member, ends⟩ := List.exists_of_findSome?_eq_some found
      obtain ⟨taken, after, rest, takes, rfl⟩ := (mem_advance_iff nameless).mp member
      have ended : after = [] := by
        rw [finish, Thread.skip_rest_eq rest] at ends
        split at ends
        · rename_i empty
          exact List.isEmpty_iff.mp empty
        · cases ends
      subst ended
      rw [List.append_nil] at rest
      rw [finish, Thread.skip_rest, rest, List.drop_length] at ends
      cases ends
      exact ⟨choice, ⟨rfl, by rwa [rest]⟩, reports, fun other fits => .inl fits.1⟩

section Characters

variable {candidate : Text → Candidate → Prop} {text after : Text}

theorem advance_in_segment_nil (boundary : AtBoundary thread.rest) :
    advance mode .inSegment thread = [] := by
  have outside : thread.rest.head?.any isSegmentCharacter = false := by
    rcases boundary with ended | ⟨more, slash⟩
    · rw [ended]
      rfl
    · rw [slash]
      rfl
  rw [advance, Thread.take_eq, outside]
  rfl

theorem advance_in_segment_cons {first : Char} {others : Text}
    (rest : thread.rest = first :: others) (noSlash : first ≠ '/') :
    advance mode .inSegment thread = if first = ':' then [] else [thread.skip 1] := by
  rw [advance, Thread.take_eq, rest]
  by_cases colon : first = ':' <;> simp [isSegmentCharacter, noSlash, colon]

theorem find_few_characters {first : Char} {others : Text} (rest : thread.rest = first :: others)
    (noSlash : first ≠ '/') (rounds : Nat) :
    (fewRounds (advance mode .inSegment) (rounds + 1) thread).findSome? next =
      (next thread).or (if first = ':' then none
        else (fewRounds (advance mode .inSegment) rounds (thread.skip 1)).findSome? next) := by
  rw [fewRounds, find_cons_or, advance_in_segment_cons rest noSlash]
  split
  · rfl
  · rw [List.filter_eq_self.mpr (by simp), List.flatMap_singleton]

theorem find_no_characters (boundary : AtBoundary thread.rest) (rounds : Nat) :
    (fewRounds (advance mode .inSegment) rounds thread).findSome? next = next thread := by
  cases rounds with
  | zero => exact List.findSome?_singleton
  | succ rounds =>
      rw [fewRounds, advance_in_segment_nil boundary]
      exact List.findSome?_singleton

/-- What is taken of a text with at least one character goes on behind its first one. -/
theorem one_more_first {first : Char} {outcome : Option Result}
    (further : first ≠ ':' → FirstOf before
      (fun one => ∃ taken left, text = taken ++ left ∧ ':' ∉ taken ∧ candidate (first :: taken) one)
        result outcome) :
    FirstOf before
      (fun one => ∃ taken left, first :: text = taken ++ left ∧ taken ≠ [] ∧ ':' ∉ taken ∧
        candidate taken one)
      result (if first = ':' then none else outcome) := by
  have starts : ∀ {taken left : Text}, first :: text = taken ++ left → taken ≠ [] → ':' ∉ taken →
      first ≠ ':' ∧ ∃ others, taken = first :: others ∧ text = others ++ left ∧ ':' ∉ others := by
    intro taken left same nonempty noColon
    obtain ⟨other, others, rfl⟩ := List.exists_cons_of_ne_nil nonempty
    rw [List.cons_append, List.cons.injEq] at same
    obtain ⟨rfl, same⟩ := same
    rw [List.mem_cons, not_or] at noColon
    exact ⟨Ne.symm noColon.1, others, rfl, same, noColon.2⟩
  split
  · rename_i colon
    rintro one ⟨taken, left, same, nonempty, noColon, -⟩
    exact (starts same nonempty noColon).1 colon
  · rename_i other
    refine (further other).congr fun one => ⟨?_, ?_⟩
    · rintro ⟨taken, left, rfl, noColon, fits⟩
      exact ⟨first :: taken, left, rfl,
        List.cons_ne_nil _ _, by simp [noColon, Ne.symm other], fits⟩
    · rintro ⟨taken, left, same, nonempty, noColon, fits⟩
      obtain ⟨-, others, rfl, rest, free⟩ := starts same nonempty noColon
      exact ⟨others, left, rest, free, fits⟩

theorem few_characters_first (boundary : AtBoundary after) (free : '/' ∉ text)
    (rest : thread.rest = text ++ after) {rounds : Nat} (enough : text.length ≤ rounds)
    (each : ∀ taken left, text = taken ++ left → ':' ∉ taken →
      FirstOf before (candidate taken) result (next (thread.skip taken.length)))
    (apart : ∀ taken other left right, taken.length < other.length → candidate taken left →
      candidate other right → before left right) :
    FirstOf before
      (fun one => ∃ taken left, text = taken ++ left ∧ ':' ∉ taken ∧ candidate taken one) result
      ((fewRounds (advance mode .inSegment) rounds thread).findSome? next) := by
  have here := each [] text rfl List.not_mem_nil
  induction text generalizing thread rounds candidate with
  | nil =>
      rw [find_no_characters (rest ▸ boundary)]
      refine here.congr fun one => ⟨fun fits => ⟨[], [], rfl, List.not_mem_nil, fits⟩, ?_⟩
      rintro ⟨taken, left, same, -, fits⟩
      rwa [(List.append_eq_nil_iff.mp same.symm).1] at fits
  | cons first text ih =>
      obtain ⟨noSlash, textFree⟩ := List.ne_and_not_mem_of_not_mem_cons free
      cases rounds with
      | zero => cases enough
      | succ rounds =>
          have further : first ≠ ':' → FirstOf before
              (fun one => ∃ taken left, text = taken ++ left ∧ ':' ∉ taken ∧
                candidate (first :: taken) one) result
              ((fewRounds (advance mode .inSegment) rounds (thread.skip 1)).findSome? next) := by
            intro noColon
            have step : ∀ taken left, text = taken ++ left → ':' ∉ taken →
                FirstOf before (candidate (first :: taken)) result
                  (next ((thread.skip 1).skip taken.length)) := by
              intro taken left same free
              rw [Thread.skip_skip, Nat.add_comm]
              exact each (first :: taken) left (congrArg _ same) (by simp [free, Ne.symm noColon])
            exact ih textFree (by rw [Thread.skip_rest, rest]; rfl)
              (Nat.le_of_succ_le_succ enough) step
              (fun taken other left right shorter =>
                apart _ _ left right (Nat.succ_lt_succ shorter))
              (step [] text rfl List.not_mem_nil)
          rw [find_few_characters rest (Ne.symm noSlash)]
          refine (here.or (one_more_first further) ?_).congr fun one => ⟨?_, ?_⟩
          · rintro left right inHere ⟨taken, -, -, nonempty, -, inFurther⟩
            exact apart [] taken left right (List.length_pos_iff.mpr nonempty) inHere inFurther
          · rintro (fits | ⟨taken, left, same, -, free, fits⟩)
            · exact ⟨[], _, rfl, List.not_mem_nil, fits⟩
            · exact ⟨taken, left, same, free, fits⟩
          · rintro ⟨taken, left, same, free, fits⟩
            by_cases nothing : taken = []
            · exact .inl (nothing ▸ fits)
            · exact .inr ⟨taken, left, same, nothing, free, fits⟩

/-- At least one character is taken, and no more than what follows asks for. -/
theorem any_characters_first (candidate : Text → Candidate → Prop) (blind : Blind next)
    (boundary : AtBoundary after) (free : '/' ∉ text)
    (rest : thread.rest = text ++ after)
    (each : ∀ taken left, text = taken ++ left → taken ≠ [] → ':' ∉ taken →
      FirstOf before (candidate taken) result (next (thread.skip taken.length)))
    (apart : ∀ taken other left right, taken.length < other.length → candidate taken left →
      candidate other right → before left right) :
    FirstOf before
      (fun one => ∃ taken left, text = taken ++ left ∧ taken ≠ [] ∧ ':' ∉ taken ∧
        candidate taken one)
      result ((advance mode anyCharacters thread).findSome? next) := by
  have explored := (explores_advance mode .inSegment).flatMap
    (explores_few_rounds (explores_advance mode .inSegment))
  have opened : (advance mode anyCharacters thread).findSome? next =
      (advance mode .inSegment thread).findSome? fun once =>
        (fewRounds (advance mode .inSegment) once.rest.length once).findSome? next :=
    (find_distinct explored blind thread).trans (find_flatMap _ _ _)
  rw [opened]
  cases text with
  | nil =>
      rw [advance_in_segment_nil (rest ▸ boundary)]
      rintro one ⟨taken, left, same, nonempty, -⟩
      exact nonempty (List.append_eq_nil_iff.mp same.symm).1
  | cons first text =>
      obtain ⟨noSlash, textFree⟩ := List.ne_and_not_mem_of_not_mem_cons free
      have moved : (thread.skip 1).rest = text ++ after := by
        rw [Thread.skip_rest, rest]
        rfl
      have enough : text.length ≤ (thread.skip 1).rest.length := by
        rw [moved, List.length_append]
        exact Nat.le_add_right _ _
      rw [advance_in_segment_cons rest (Ne.symm noSlash), apply_ite (List.findSome? _),
        List.findSome?_nil, List.findSome?_singleton]
      apply one_more_first
      intro noColon
      refine few_characters_first boundary textFree moved enough (fun taken left same free => ?_)
        fun taken other left right shorter => apart _ _ left right (Nat.succ_lt_succ shorter)
      rw [Thread.skip_skip, Nat.add_comm]
      exact each (first :: taken) left (congrArg _ same) (List.cons_ne_nil _ _)
        (by simp [free, Ne.symm noColon])

end Characters

section Directories

variable {candidate : List Text → Candidate → Prop} {segment : Text} {segments : List Text}

abbrev directory : Regex := .group (.sequence (.most .inSegment) (.character '/'))

theorem nameless_directory : directory.Nameless := ⟨trivial, trivial⟩

theorem nameless_any_directories : anyDirectories.Nameless := nameless_directory

theorem find_directory {name after : Text} (rest : thread.rest = name ++ '/' :: after)
    (nonempty : name ≠ []) (free : '/' ∉ name) (noColon : ':' ∉ name) :
    (advance mode directory thread).findSome? next = next (thread.skip (name.length + 1)) := by
  apply find_same
  · rw [mem_advance_iff nameless_directory]
    refine ⟨name ++ ['/'], after, by rw [rest]; simp, ?_, by rw [List.length_append]; rfl⟩
    exact (takes_directory_iff _ _ _).mpr ⟨name, rfl, nonempty, free, noColon⟩
  · intro other member
    obtain ⟨taken, left, same, takes, rfl⟩ := (mem_advance_iff nameless_directory).mp member
    obtain ⟨found, rfl, -, foundFree, -⟩ := (takes_directory_iff _ _ _).mp takes
    rw [rest, List.append_assoc, List.singleton_append] at same
    obtain ⟨rfl, -⟩ := append_at_boundary_inj free foundFree (.inr ⟨_, rfl⟩) (.inr ⟨_, rfl⟩) same
    rw [List.length_append]
    rfl

theorem advance_directory_nil
    (none : ∀ name after, thread.rest = name ++ '/' :: after → name ≠ [] → '/' ∉ name →
      ':' ∈ name) :
    advance mode directory thread = [] := by
  rw [List.eq_nil_iff_forall_not_mem]
  intro later member
  obtain ⟨taken, left, same, takes, -⟩ := (mem_advance_iff nameless_directory).mp member
  obtain ⟨name, rfl, nonempty, free, noColon⟩ := (takes_directory_iff _ _ _).mp takes
  exact noColon (none name left (by simpa using same) nonempty free)

theorem directory_first {candidate : Candidate → Prop} {after : Text}
    (rest : thread.rest = segment ++ '/' :: after) (nonempty : segment ≠ []) (free : '/' ∉ segment)
    (further : ':' ∉ segment →
      FirstOf before candidate result (next (thread.skip (segment.length + 1)))) :
    FirstOf before (fun one => ':' ∉ segment ∧ candidate one) result
      ((advance mode directory thread).findSome? next) := by
  by_cases colon : ':' ∈ segment
  · have none : advance mode directory thread = [] := by
      apply advance_directory_nil
      intro name behind same _ nameFree
      rw [rest] at same
      obtain ⟨rfl, -⟩ := append_at_boundary_inj free nameFree (.inr ⟨_, rfl⟩) (.inr ⟨_, rfl⟩) same
      exact colon
    rw [none]
    exact fun one both => both.1 colon
  · rw [find_directory rest nonempty free colon]
    exact (further colon).congr fun one => (and_iff_right colon).symm

theorem directory_advances :
    ∀ later ∈ advance mode directory thread, thread.offset < later.offset := by
  intro later member
  obtain ⟨taken, left, same, takes, rfl⟩ := (mem_advance_iff nameless_directory).mp member
  obtain ⟨name, rfl, -⟩ := (takes_directory_iff _ _ _).mp takes
  simp

theorem find_many_directories (rounds : Nat) :
    (manyRounds (advance mode directory) (rounds + 1) thread).findSome? next =
      ((advance mode directory thread).findSome? fun once =>
        (manyRounds (advance mode directory) rounds once).findSome? next).or (next thread) := by
  have kept :
      (advance mode directory thread).filter (thread.offset < ·.offset) =
        advance mode directory thread :=
    List.filter_eq_self.mpr fun later member => decide_eq_true (directory_advances later member)
  rw [manyRounds, kept, List.findSome?_append, find_flatMap, List.findSome?_singleton]

theorem find_last_segment (free : '/' ∉ thread.rest) (rounds : Nat) :
    (manyRounds (advance mode directory) rounds thread).findSome? next = next thread := by
  have none : advance mode directory thread = [] := by
    apply advance_directory_nil
    intro name after same
    exact absurd (by simp [same]) free
  cases rounds with
  | zero => exact List.findSome?_singleton
  | succ rounds => rw [find_many_directories, none, List.findSome?_nil, Option.none_or]

/-- The candidates for some of the segments, none with a colon, that leave at least one. -/
def Passing (segments : List Text) (candidate : List Text → Candidate → Prop) (one : Candidate) :
    Prop :=
  ∃ taken last others, segments = taken ++ last :: others ∧ (∀ name ∈ taken, ':' ∉ name) ∧
  candidate taken one

theorem passing_singleton_iff (candidate : List Text → Candidate → Prop) (one : Candidate) :
    Passing [segment] candidate one ↔ candidate [] one := by
  constructor
  · rintro ⟨taken, last, others, same, -, fits⟩
    cases taken with
    | nil => exact fits
    | cons first taken => simp at same
  · intro fits
    exact ⟨[], segment, [], rfl, List.forall_mem_nil _, fits⟩

theorem passing_cons_iff {second : Text} (candidate : List Text → Candidate → Prop)
    (one : Candidate) :
    Passing (segment :: second :: segments) candidate one ↔
      (':' ∉ segment ∧
        Passing (second :: segments) (fun taken => candidate (segment :: taken)) one) ∨
        candidate [] one := by
  constructor
  · rintro ⟨taken, last, others, same, free, fits⟩
    cases taken with
    | nil => exact .inr fits
    | cons first taken =>
        rw [List.cons_append, List.cons.injEq] at same
        obtain ⟨rfl, same⟩ := same
        obtain ⟨noColon, free⟩ := List.forall_mem_cons.mp free
        exact .inl ⟨noColon, taken, last, others, same, free, fits⟩
  · rintro (⟨noColon, taken, last, others, same, free, fits⟩ | fits)
    · exact ⟨segment :: taken, last, others, congrArg _ same,
        List.forall_mem_cons.mpr ⟨noColon, free⟩, fits⟩
    · exact ⟨[], segment, _, rfl, List.forall_mem_nil _, fits⟩

/-- Directories are taken one by one, as many as what follows admits. -/
theorem many_directories_first (named : ∀ name ∈ segment :: segments, name ≠ [] ∧ '/' ∉ name)
    (rest : thread.rest = segment ++ slashed segments) {rounds : Nat}
    (enough : segments.length ≤ rounds)
    (each : ∀ taken last others, segment :: segments = taken ++ last :: others →
      (∀ name ∈ taken, ':' ∉ name) →
      ∀ later : Thread, later.rest = last ++ slashed others → later.captures = thread.captures →
        FirstOf before (candidate taken) result (next later))
    (apart : ∀ taken other left right, other.length < taken.length → candidate taken left →
      candidate other right → before left right) :
    FirstOf before (Passing (segment :: segments) candidate) result
      ((manyRounds (advance mode directory) rounds thread).findSome? next) := by
  have here := each [] segment segments rfl (by simp) thread rest rfl
  obtain ⟨⟨nonempty, free⟩, laterNamed⟩ := List.forall_mem_cons.mp named
  induction segments generalizing segment thread rounds candidate with
  | nil =>
      rw [slashed_nil, List.append_nil] at rest
      rw [find_last_segment (rest ▸ free)]
      exact here.congr fun one => (passing_singleton_iff candidate one).symm
  | cons second segments ih =>
      cases rounds with
      | zero => cases enough
      | succ rounds =>
          obtain ⟨⟨secondNonempty, secondFree⟩, othersNamed⟩ := List.forall_mem_cons.mp laterNamed
          rw [slashed_cons] at rest
          have moved : (thread.skip (segment.length + 1)).rest = second ++ slashed segments := by
            rw [← Thread.skip_skip, Thread.skip_rest, Thread.skip_rest_eq rest]
            rfl
          have further : ':' ∉ segment → FirstOf before
              (Passing (second :: segments) fun taken => candidate (segment :: taken)) result
              ((manyRounds (advance mode directory) rounds
                (thread.skip (segment.length + 1))).findSome? next) := by
            intro noColon
            have step : ∀ taken last others, second :: segments = taken ++ last :: others →
                (∀ name ∈ taken, ':' ∉ name) →
                ∀ later : Thread, later.rest = last ++ slashed others →
                  later.captures = (thread.skip (segment.length + 1)).captures →
                    FirstOf before (candidate (segment :: taken)) result (next later) :=
              fun taken last others same free =>
                each (segment :: taken) last others (congrArg _ same)
                (List.forall_mem_cons.mpr ⟨noColon, free⟩)
            exact ih laterNamed moved (Nat.le_of_succ_le_succ enough) step
              (fun taken other left right fewer => apart _ _ left right (Nat.succ_lt_succ fewer))
              (step [] second segments rfl (List.forall_mem_nil _) _ moved rfl) othersNamed
                secondNonempty secondFree
          rw [find_many_directories]
          refine ((directory_first rest nonempty free further).or here ?_).congr fun one =>
            (passing_cons_iff candidate one).symm
          rintro left right ⟨-, taken, -, -, -, -, inFurther⟩ inHere
          exact apart (segment :: taken) [] left right (Nat.succ_pos _) inFurther inHere

theorem length_le_slashed (segments : List Text) : segments.length ≤ (slashed segments).length := by
  induction segments with
  | nil => exact Nat.le_refl 0
  | cons segment segments ih =>
      rw [slashed_cons, List.length_cons, List.length_cons, List.length_append]
      omega

theorem any_directories_first (candidate : List Text → Candidate → Prop) (blind : Blind next)
    (named : ∀ name ∈ segment :: segments, name ≠ [] ∧ '/' ∉ name)
    (rest : thread.rest = segment ++ slashed segments)
    (each : ∀ taken last others, segment :: segments = taken ++ last :: others →
      (∀ name ∈ taken, ':' ∉ name) →
      ∀ later : Thread, later.rest = last ++ slashed others → later.captures = thread.captures →
        FirstOf before (candidate taken) result (next later))
    (apart : ∀ taken other left right, other.length < taken.length → candidate taken left →
      candidate other right → before left right) :
    FirstOf before (Passing (segment :: segments) candidate) result
      ((advance mode anyDirectories thread).findSome? next) := by
  have enough : segments.length ≤ thread.rest.length := by
    rw [rest, List.length_append]
    exact Nat.le_add_left_of_le (length_le_slashed segments)
  have explored := explores_many_rounds (explores_advance mode directory)
  have opened : (advance mode anyDirectories thread).findSome? next =
      (manyRounds (advance mode directory) thread.rest.length thread).findSome? next :=
    find_distinct explored blind thread
  rw [opened]
  exact many_directories_first named rest enough each apart

end Directories

end Regex

end PathGlob
