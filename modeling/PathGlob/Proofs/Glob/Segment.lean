import Mathlib.Data.List.Forall2
import PathGlob.Glob.Regex
import PathGlob.Proofs.Glob.Proper
import PathGlob.Proofs.Regex.Language

/-!
# What one segment of a glob takes

States, without regular expressions, which segments the parts of a component describe: one stretch
for each part, and for a last segment that ends with a dot and `*` also the text before the dot,
with or without a suffix. The expression made from the parts takes exactly these segments, and the
expression for entry names finds exactly these names.
-/
namespace PathGlob

set_option autoImplicit false

def CaseMode.Agrees (mode : CaseMode) (left right : Text) : Prop :=
  List.Forall₂ (fun one other => mode.agree one other = true) left right

def Part.Describes (mode : CaseMode) : Part → Text → Prop
  | .star, taken => taken ≠ [] ∧ ':' ∉ taken
  | .literal text, taken => mode.Agrees text taken
  | .oneOf characters, taken => ∃ listed ∈ characters, mode.Agrees [listed] taken
  | .placeholder _, taken => taken ≠ [] ∧ ':' ∉ taken

def Part.DescribeAll (mode : CaseMode) : List Part → Text → Prop
  | [], taken => taken = []
  | part :: parts, taken => ∃ stretch rest, taken = stretch ++ rest ∧ part.Describes mode stretch ∧
      DescribeAll mode parts rest

def IsSuffix (suffix : Text) : Prop := suffix = [] ∨ ∃ tail, suffix = '.' :: tail ∧ ':' ∉ tail

/--
Whether the parts of a component describe a segment. In the last segment a final dot and `*` may
also stand for nothing, or for the dot and any number of characters.
-/
def Component.DescribeSegment (mode : CaseMode) (isLast : Bool) (parts : List Part)
    (segment : Text) : Prop :=
  Part.DescribeAll mode parts segment ∨
    isLast = true ∧ ∃ before stem, parts = before ++ [.literal (stem ++ ['.']), .star] ∧
      ∃ bare suffix, segment = bare ++ suffix ∧
        Part.DescribeAll mode (before ++ [.literal stem]) bare ∧ IsSuffix suffix

namespace CaseMode

theorem agree_unfolded_left_iff (mode : CaseMode) {character : Char}
    (unfolded : character ∈ CaseFold.unfolded) (other : Char) :
    mode.agree character other = true ↔ other = character := by
  have fixed := (CaseFold.fold_eq_unfolded_iff unfolded character).mpr rfl
  have only := CaseFold.fold_eq_unfolded_iff unfolded other
  cases mode with
  | sensitive =>
      rw [agree, beq_iff_eq]
      exact eq_comm
  | insensitive =>
      rw [agree, Bool.or_eq_true, beq_iff_eq, beq_iff_eq, fixed, eq_comm,
        @eq_comm _ _ (CaseFold.fold other), only, or_self]

theorem agree_unfolded_right_iff (mode : CaseMode) {character : Char}
    (unfolded : character ∈ CaseFold.unfolded) (other : Char) :
    mode.agree other character = true ↔ other = character := by
  have fixed := (CaseFold.fold_eq_unfolded_iff unfolded character).mpr rfl
  have only := CaseFold.fold_eq_unfolded_iff unfolded other
  cases mode with
  | sensitive => simp [agree]
  | insensitive => rw [agree, Bool.or_eq_true, beq_iff_eq, beq_iff_eq, fixed, only, or_self]

theorem Agrees.slash_not_mem {mode : CaseMode} {text taken : Text}
    (agrees : mode.Agrees text taken) (free : '/' ∉ text) : '/' ∉ taken := by
  induction agrees with
  | nil => simp
  | @cons one other texts takens same _ ih =>
      rw [List.mem_cons, not_or] at free ⊢
      refine ⟨?_, ih free.2⟩
      intro equal
      subst equal
      exact free.1 ((agree_unfolded_right_iff mode (by decide) one).mp same).symm

theorem agrees_append_iff (mode : CaseMode) (left right taken : Text) :
    mode.Agrees (left ++ right) taken ↔
      ∃ first rest, taken = first ++ rest ∧ mode.Agrees left first ∧ mode.Agrees right rest := by
  induction left generalizing taken with
  | nil => simp [Agrees]
  | cons one left ih =>
      simp only [Agrees] at ih
      simp only [Agrees, List.cons_append, List.forall₂_cons_left_iff, ih]
      constructor
      · intro both
        rcases both with ⟨other, -, same, ⟨first, rest, rfl, inLeft, inRight⟩, rfl⟩
        exact ⟨other :: first, rest, rfl, ⟨other, first, same, inLeft, rfl⟩, inRight⟩
      · intro both
        rcases both with ⟨-, rest, rfl, ⟨other, first, same, inLeft, rfl⟩, inRight⟩
        exact ⟨other, first ++ rest, same, ⟨first, rest, rfl, inLeft, inRight⟩, rfl⟩

theorem agrees_dot_iff (mode : CaseMode) (taken : Text) :
    mode.Agrees ['.'] taken ↔ taken = ['.'] := by
  simp only [Agrees, List.forall₂_cons_left_iff, List.forall₂_nil_left_iff]
  constructor
  · intro both
    rcases both with ⟨other, -, same, rfl, rfl⟩
    rw [(agree_unfolded_left_iff mode (by decide) other).mp same]
  · intro equal
    subst equal
    exact ⟨'.', [], agree_refl mode '.', rfl, rfl⟩

end CaseMode

theorem IsRun.slash_not_mem {text : Text} (run : IsRun text) : '/' ∉ text := by
  intro member
  exact absurd (run.plain '/' member) (by decide)

namespace Regex

/-- Whether what an expression takes depends on the text taken alone. -/
def TakesJust (mode : CaseMode) (regex : Regex) (language : Text → Prop) : Prop :=
  ∀ before taken after, Takes mode regex before taken after ↔ language taken

theorem takes_just_concat_cons {mode : CaseMode} {part : Regex} {parts : List Regex}
    {first rest : Text → Prop} (takesFirst : TakesJust mode part first)
    (takesRest : TakesJust mode (concat parts) rest) :
    TakesJust mode (concat (part :: parts)) fun taken =>
      ∃ left right, taken = left ++ right ∧ first left ∧ rest right := by
  intro before taken after
  rw [takes_concat_cons_iff]
  constructor
  · intro both
    rcases both with ⟨left, right, split, inFirst, inRest⟩
    exact ⟨left, right, split, (takesFirst _ _ _).mp inFirst, (takesRest _ _ _).mp inRest⟩
  · intro both
    rcases both with ⟨left, right, split, inFirst, inRest⟩
    exact ⟨left, right, split, (takesFirst _ _ _).mpr inFirst, (takesRest _ _ _).mpr inRest⟩

theorem takes_just_literal (mode : CaseMode) (text : Text) :
    TakesJust mode (literal text) (mode.Agrees text) := by
  induction text with
  | nil =>
      intro before taken after
      exact List.forall₂_nil_left_iff.symm
  | cons first text ih =>
      have takesFirst : TakesJust mode (.character first)
          fun taken => ∃ next, taken = [next] ∧ mode.agree first next = true := fun _ _ _ => Iff.rfl
      intro before taken after
      rw [literal, List.map_cons, takes_just_concat_cons takesFirst ih, CaseMode.Agrees,
        List.forall₂_cons_left_iff]
      constructor
      · intro both
        rcases both with ⟨-, right, rfl, ⟨next, rfl, same⟩, rest⟩
        exact ⟨next, right, same, rest, rfl⟩
      · intro both
        rcases both with ⟨next, right, same, rest, rfl⟩
        exact ⟨[next], right, rfl, ⟨next, rfl, same⟩, rest⟩

theorem takes_just_one_of (mode : CaseMode) {characters : Text} (nonempty : characters ≠ []) :
    TakesJust mode (oneOf characters) fun taken =>
      ∃ listed ∈ characters, mode.Agrees [listed] taken := by
  have single : ∀ listed, TakesJust mode (.character listed) (mode.Agrees [listed]) := by
    intro listed before taken after
    simp only [Takes, CaseMode.Agrees, List.forall₂_cons_left_iff, List.forall₂_nil_left_iff]
    constructor
    · intro both
      rcases both with ⟨next, rfl, same⟩
      exact ⟨next, [], same, rfl, rfl⟩
    · intro both
      rcases both with ⟨next, -, same, rfl, rfl⟩
      exact ⟨next, rfl, same⟩
  induction characters with
  | nil => exact absurd rfl nonempty
  | cons first others ih =>
      intro before taken after
      cases others with
      | nil => simpa [oneOf] using single first before taken after
      | cons second others =>
          have rest := ih (by simp) before taken after
          change _ ↔ ∃ listed ∈ first :: second :: others, _
          rw [List.exists_mem_cons_iff]
          exact or_congr (single first before taken after) rest

theorem rounds_in_segment_iff (mode : CaseMode) (before taken after : Text) :
    Rounds (Takes mode .inSegment) before taken after ↔
      ∀ character ∈ taken, isSegmentCharacter character = true := by
  constructor
  · intro rounds
    induction rounds with
    | stop => simp
    | again once more ih =>
        obtain ⟨next, rfl, inside⟩ := once
        simpa using ⟨inside, ih⟩
  · intro inside
    induction taken generalizing before with
    | nil => exact .stop before after
    | cons first taken ih =>
        have once : Takes mode .inSegment before [first] (taken ++ after) :=
          ⟨first, rfl, inside first (by simp)⟩
        exact .again once (ih _ fun character member => inside character (by simp [member]))

theorem both_in_segment_iff (mode : CaseMode) (before taken after : Text) :
    Both (Takes mode .inSegment) (Rounds (Takes mode .inSegment)) before taken after ↔
      taken ≠ [] ∧ ∀ character ∈ taken, isSegmentCharacter character = true := by
  constructor
  · intro both
    rcases both with ⟨-, right, rfl, ⟨next, rfl, inside⟩, rounds⟩
    have others := (rounds_in_segment_iff mode _ _ _).mp rounds
    simpa using ⟨inside, others⟩
  · intro both
    rcases both with ⟨nonempty, inside⟩
    cases taken with
    | nil => exact absurd rfl nonempty
    | cons first taken =>
        refine ⟨[first], taken, rfl, ⟨first, rfl, inside first (by simp)⟩, ?_⟩
        exact (rounds_in_segment_iff mode _ _ _).mpr fun character member =>
          inside character (by simp [member])

theorem segment_characters_iff (taken : Text) :
    (∀ character ∈ taken, isSegmentCharacter character = true) ↔ '/' ∉ taken ∧ ':' ∉ taken := by
  constructor
  · intro inside
    exact ⟨fun slash => absurd (inside '/' slash) (by decide),
      fun colon => absurd (inside ':' colon) (by decide)⟩
  · intro both character member
    rcases both with ⟨noSlash, noColon⟩
    rw [isSegmentCharacter, Bool.and_eq_true, bne_iff_ne, bne_iff_ne]
    exact ⟨fun same => noSlash (same ▸ member), fun same => noColon (same ▸ member)⟩

theorem takes_just_any_characters (mode : CaseMode) :
    TakesJust mode anyCharacters fun taken => taken ≠ [] ∧ '/' ∉ taken ∧ ':' ∉ taken := by
  intro before taken after
  exact (both_in_segment_iff mode before taken after).trans
    (and_congr_right' (segment_characters_iff taken))

theorem takes_just_whole_segment (mode : CaseMode) :
    TakesJust mode wholeSegment fun taken => taken ≠ [] ∧ '/' ∉ taken ∧ ':' ∉ taken :=
  takes_just_any_characters mode

theorem takes_just_optional_suffix (mode : CaseMode) :
    TakesJust mode optionalSuffix fun taken => '/' ∉ taken ∧ IsSuffix taken := by
  intro before taken after
  constructor
  · intro either
    rcases either with ⟨-, tail, rfl, ⟨dot, rfl, same⟩, rounds⟩ | rfl
    · rw [CaseMode.agree_unfolded_left_iff mode (by decide)] at same
      subst same
      obtain ⟨noSlash, noColon⟩ :=
        (segment_characters_iff tail).mp ((rounds_in_segment_iff mode _ _ _).mp rounds)
      exact ⟨by simpa using noSlash, .inr ⟨tail, rfl, noColon⟩⟩
    · exact ⟨by simp, .inl rfl⟩
  · intro both
    rcases both with ⟨noSlash, rfl | ⟨tail, rfl, noColon⟩⟩
    · exact .inr rfl
    · have inside := (segment_characters_iff tail).mpr ⟨by simpa using noSlash, noColon⟩
      have dot : mode.agree '.' '.' = true := CaseMode.agree_refl mode '.'
      exact .inl ⟨['.'], tail, rfl, ⟨'.', rfl, dot⟩, (rounds_in_segment_iff mode _ _ _).mpr inside⟩

theorem takes_under_case (mode : CaseMode) (regex : Regex) :
    Takes .sensitive (underCase mode regex) = Takes mode regex := by
  cases mode <;> rfl

end Regex

namespace Part

/-- Whether no separator can come of a part. The stem of a literal has this, even if it is empty. -/
def Readable : Part → Prop
  | .literal text => '/' ∉ text
  | .oneOf characters => characters ≠ [] ∧ '/' ∉ characters
  | _ => True

theorem Proper.readable {part : Part} (proper : part.Proper) : part.Readable := by
  cases part with
  | star => trivial
  | literal text => exact IsRun.slash_not_mem proper
  | oneOf characters => exact ⟨IsRun.nonempty proper, IsRun.slash_not_mem proper⟩
  | placeholder name => trivial

theorem takes_just_regex (mode : CaseMode) (reporting : Reporting) {part : Part}
    (readable : part.Readable) :
    Regex.TakesJust mode (part.regex reporting) fun taken =>
      '/' ∉ taken ∧ part.Describes mode taken := by
  intro before taken after
  have characters : Regex.Takes mode Regex.anyCharacters before taken after ↔
      '/' ∉ taken ∧ taken ≠ [] ∧ ':' ∉ taken := by
    rw [Regex.takes_just_any_characters mode]
    exact and_left_comm
  cases part with
  | star => exact characters
  | literal text =>
      rw [regex, Regex.takes_just_literal mode text]
      exact ⟨fun agrees => ⟨agrees.slash_not_mem readable, agrees⟩, And.right⟩
  | oneOf listed =>
      refine (Regex.takes_just_one_of mode readable.1 before taken after).trans ?_
      constructor
      · intro both
        rcases both with ⟨one, member, agrees⟩
        refine ⟨agrees.slash_not_mem ?_, one, member, agrees⟩
        rw [List.mem_singleton]
        intro equal
        subst equal
        exact readable.2 member
      · exact And.right
  | placeholder name => cases reporting <;> exact characters

theorem takes_just_regexes (mode : CaseMode) (reporting : Reporting) {parts : List Part}
    (readable : ∀ part ∈ parts, part.Readable) :
    Regex.TakesJust mode (Regex.concat (parts.map (Part.regex reporting))) fun taken =>
      '/' ∉ taken ∧ DescribeAll mode parts taken := by
  induction parts with
  | nil =>
      intro before taken after
      change taken = [] ↔ _
      simp +contextual [DescribeAll]
  | cons part parts ih =>
      have takesFirst := takes_just_regex mode reporting (readable part (by simp))
      have takesRest := ih fun other member => readable other (by simp [member])
      intro before taken after
      rw [List.map_cons, Regex.takes_just_concat_cons takesFirst takesRest]
      constructor
      · intro both
        rcases both with ⟨left, right, rfl, ⟨leftFree, inFirst⟩, rightFree, inRest⟩
        exact ⟨by simp [leftFree, rightFree], left, right, rfl, inFirst, inRest⟩
      · intro both
        rcases both with ⟨free, left, right, rfl, inFirst, inRest⟩
        rw [List.mem_append, not_or] at free
        exact ⟨left, right, rfl, ⟨free.1, inFirst⟩, free.2, inRest⟩

theorem describe_all_append_iff (mode : CaseMode) (parts others : List Part) (taken : Text) :
    DescribeAll mode (parts ++ others) taken ↔
      ∃ left right, taken = left ++ right ∧ DescribeAll mode parts left ∧
        DescribeAll mode others right := by
  induction parts generalizing taken with
  | nil => simp [DescribeAll]
  | cons part parts ih =>
      simp only [List.cons_append, DescribeAll, ih]
      constructor
      · intro both
        rcases both with ⟨stretch, -, rfl, inFirst, left, right, rfl, inParts, inOthers⟩
        exact ⟨stretch ++ left, right, (List.append_assoc ..).symm,
          ⟨stretch, left, rfl, inFirst, inParts⟩, inOthers⟩
      · intro both
        rcases both with ⟨-, right, rfl, ⟨stretch, left, rfl, inFirst, inParts⟩, inOthers⟩
        exact ⟨stretch, left ++ right, List.append_assoc .., inFirst, left, right, rfl, inParts,
          inOthers⟩

theorem describe_all_singleton_iff (mode : CaseMode) (part : Part) (taken : Text) :
    DescribeAll mode [part] taken ↔ part.Describes mode taken := by
  simp [DescribeAll]

theorem describe_all_dot_star (mode : CaseMode) {before : List Part} {stem taken : Text}
    (describes : DescribeAll mode (before ++ [.literal (stem ++ ['.']), .star]) taken) :
    ∃ bare suffix, taken = bare ++ suffix ∧ DescribeAll mode (before ++ [.literal stem]) bare ∧
      IsSuffix suffix := by
  obtain ⟨left, -, rfl, inBefore, dotted, tail, rfl, inDotted, inTail⟩ :=
    (describe_all_append_iff mode _ _ _).mp describes
  obtain ⟨-, noColon⟩ := (describe_all_singleton_iff mode _ _).mp inTail
  obtain ⟨bare, dot, rfl, inStem, inDot⟩ := (CaseMode.agrees_append_iff mode _ _ _).mp inDotted
  rw [CaseMode.agrees_dot_iff] at inDot
  subst inDot
  refine ⟨left ++ bare, '.' :: tail, by simp, ?_, .inr ⟨tail, rfl, noColon⟩⟩
  rw [describe_all_append_iff]
  exact ⟨left, bare, rfl, inBefore, (describe_all_singleton_iff mode _ _).mpr inStem⟩

theorem dot_star_eq_some_iff (parts before : List Part) (stem : Text) :
    dotStar? parts = some (before, stem) ↔
      parts = before ++ [.literal (stem ++ ['.']), .star] := by
  fun_induction dotStar? parts generalizing before with
  | case1 text ends =>
      obtain ⟨init, rfl⟩ := List.getLast?_eq_some_iff.mp ends
      cases before with
      | nil => simp
      | cons first before => cases before <;> simp
  | case2 text ends =>
      cases before with
      | nil =>
          simp only [reduceCtorEq, List.nil_append, List.cons.injEq, literal.injEq, and_true,
            false_iff]
          intro equal
          subst equal
          exact ends (List.getLast?_concat ..)
      | cons first before => cases before <;> simp
  | case3 part rest other ih =>
      cases before with
      | nil =>
          simp only [Option.map_eq_some_iff, Prod.mk.injEq, reduceCtorEq, false_and, and_false,
            exists_false, List.nil_append, List.cons.injEq, false_iff, not_and]
          exact other _
      | cons first before =>
          simp only [Option.map_eq_some_iff, Prod.exists, Prod.mk.injEq, List.cons.injEq,
            List.cons_append]
          constructor
          · intro both
            rcases both with ⟨others, stem, found, ⟨rfl, rfl⟩, rfl⟩
            exact ⟨rfl, (ih others).mp found⟩
          · intro both
            rcases both with ⟨rfl, same⟩
            exact ⟨before, stem, (ih before).mpr same, ⟨rfl, rfl⟩, rfl⟩
  | case4 => simp

end Part

namespace Component

theorem describe_segment_plain_iff (mode : CaseMode) {isLast : Bool} {parts : List Part}
    (plain : (if isLast then Part.dotStar? parts else none) = none) (segment : Text) :
    DescribeSegment mode isLast parts segment ↔ Part.DescribeAll mode parts segment := by
  constructor
  · intro either
    rcases either with described | ⟨rfl, others, stem, same, -⟩
    · exact described
    · rw [if_pos rfl, (Part.dot_star_eq_some_iff parts others stem).mpr same] at plain
      cases plain
  · exact .inl

theorem describe_segment_dotted_iff (mode : CaseMode) {parts others : List Part} {stem : Text}
    (dotted : Part.dotStar? parts = some (others, stem)) (segment : Text) :
    DescribeSegment mode true parts segment ↔
      ∃ bare suffix, segment = bare ++ suffix ∧
        Part.DescribeAll mode (others ++ [.literal stem]) bare ∧ IsSuffix suffix := by
  have same := (Part.dot_star_eq_some_iff parts others stem).mp dotted
  constructor
  · intro either
    rcases either with described | ⟨-, before, other, otherSame, described⟩
    · rw [same] at described
      exact Part.describe_all_dot_star mode described
    · rw [(Part.dot_star_eq_some_iff parts before other).mpr otherSame] at dotted
      cases dotted
      exact described
  · intro described
    exact .inr ⟨rfl, others, stem, same, described⟩

theorem readable_of_dotted {parts others : List Part} {stem : Text}
    (proper : ∀ part ∈ parts, part.Proper) (dotted : Part.dotStar? parts = some (others, stem)) :
    ∀ part ∈ others ++ [.literal stem], part.Readable := by
  have same := (Part.dot_star_eq_some_iff parts others stem).mp dotted
  intro part member
  rcases List.mem_append.mp member with earlier | last
  · exact (proper part (by simp [same, earlier])).readable
  · have withDot := (proper (.literal (stem ++ ['.'])) (by simp [same])).readable
    rw [List.mem_singleton.mp last]
    exact fun slash => withDot (List.mem_append_left _ slash)

theorem takes_just_dotted (mode : CaseMode) (reporting : Reporting) {others : List Part}
    {stem : Text} (readable : ∀ part ∈ others ++ [.literal stem], part.Readable) :
    Regex.TakesJust mode
      (Regex.concat
        (others.map (Part.regex reporting) ++ [Regex.literal stem, Regex.optionalSuffix]))
      fun taken => '/' ∉ taken ∧ ∃ bare suffix, taken = bare ++ suffix ∧
        Part.DescribeAll mode (others ++ [.literal stem]) bare ∧ IsSuffix suffix := by
  have takesBare := Part.takes_just_regexes mode reporting readable
  have regexes : others.map (Part.regex reporting) ++ [Regex.literal stem, Regex.optionalSuffix]
      = (others ++ [Part.literal stem]).map (Part.regex reporting) ++ [Regex.optionalSuffix] := by
    simp [Part.regex]
  intro before taken after
  rw [regexes, Regex.takes_concat_append_iff]
  constructor
  · intro both
    rcases both with ⟨bare, suffix, rfl, inBare, inSuffix⟩
    obtain ⟨bareFree, describesBare⟩ := (takesBare _ _ _).mp inBare
    rw [Regex.takes_concat_singleton_iff, Regex.takes_just_optional_suffix mode] at inSuffix
    exact ⟨by simp [bareFree, inSuffix.1], bare, suffix, rfl, describesBare, inSuffix.2⟩
  · intro both
    rcases both with ⟨free, bare, suffix, rfl, describesBare, isSuffix⟩
    rw [List.mem_append, not_or] at free
    refine ⟨bare, suffix, rfl, (takesBare _ _ _).mpr ⟨free.1, describesBare⟩, ?_⟩
    rw [Regex.takes_concat_singleton_iff]
    exact (Regex.takes_just_optional_suffix mode _ _ _).mpr ⟨free.2, isSuffix⟩

/-- The expression of a segment takes the segments that its parts describe. -/
theorem takes_just_parts_regex (mode : CaseMode) (reporting : Reporting) (isLast : Bool)
    {parts : List Part} (proper : ∀ part ∈ parts, part.Proper) :
    Regex.TakesJust mode (partsRegex reporting isLast parts) fun taken =>
      '/' ∉ taken ∧ DescribeSegment mode isLast parts taken := by
  intro before taken after
  unfold partsRegex
  split
  · rename_i others stem dotted
    cases isLast with
    | false => cases dotted
    | true =>
        rw [if_pos rfl] at dotted
        have readable := readable_of_dotted proper dotted
        refine (takes_just_dotted mode reporting readable before taken after).trans ?_
        exact and_congr_right' (describe_segment_dotted_iff mode dotted taken).symm
  · rename_i plain
    have readable : ∀ part ∈ parts, part.Readable :=
      fun part member => (proper part member).readable
    refine (Part.takes_just_regexes mode reporting readable before taken after).trans ?_
    exact and_congr_right' (describe_segment_plain_iff mode plain taken).symm

theorem name_regex_found_iff (mode : CaseMode) (isLast : Bool) {parts : List Part}
    (proper : ∀ part ∈ parts, part.Proper) {name : Text} (free : '/' ∉ name) :
    (nameRegex mode isLast parts).found name = true ↔ DescribeSegment mode isLast parts name := by
  have takesParts := takes_just_parts_regex mode .silent isLast proper
  have whole : ∀ before taken after,
      Regex.Takes .sensitive (nameRegex mode isLast parts) before taken after ↔
        before = [] ∧ after = [] ∧ '/' ∉ taken ∧ DescribeSegment mode isLast parts taken := by
    intro before taken after
    rw [nameRegex, Regex.takes_under_case, Regex.takes_text_start_iff, ← List.singleton_append,
      Regex.takes_text_end_iff, Regex.takes_concat_singleton_iff, takesParts]
  rw [Regex.found_iff_takes]
  constructor
  · intro both
    rcases both with ⟨before, taken, after, rfl, takes⟩
    obtain ⟨rfl, rfl, -, described⟩ := (whole _ _ _).mp takes
    simpa using described
  · intro described
    exact ⟨[], name, [], by simp, (whole _ _ _).mpr ⟨rfl, rfl, free, described⟩⟩

end Component

end PathGlob
