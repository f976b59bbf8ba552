import PathGlob.Proofs.Glob.Canonical
import PathGlob.Proofs.Pattern.Matching

/-!
# What plain globs take

The names of placeholders change what a search reports, never what it finds. Without them a glob
takes at least what it took before: a `*` in the place of several neighbouring ones takes what they
took together, and a final dot and `*` are untouched. It can take more, since two wildcards need
two characters and one needs only one.
-/
namespace PathGlob

set_option autoImplicit false

namespace Regex

def Alike (mode : CaseMode) (part other : Regex) : Prop := Takes mode part = Takes mode other

variable {mode : CaseMode}

theorem alike_refl (parts : List Regex) : List.Forall₂ (Alike mode) parts parts :=
  List.forall₂_same.mpr fun _ _ => rfl

theorem alike_concat {parts others : List Regex} (alike : List.Forall₂ (Alike mode) parts others) :
    Alike mode (concat parts) (concat others) := by
  funext before taken after
  induction alike generalizing before taken with
  | nil => rfl
  | @cons part other parts others same _ ih =>
      rw [eq_iff_iff, takes_concat_cons_iff, takes_concat_cons_iff, same]
      exact both_congr_right fun left right _ => iff_of_eq (ih (before ++ left) right)

end Regex

open Regex

theorem Part.regexes_alike (mode : CaseMode) (parts : List Part) :
    List.Forall₂ (Alike mode) (parts.map (Part.regex .named)) (parts.map (Part.regex .silent)) := by
  rw [List.forall₂_map_left_iff, List.forall₂_map_right_iff, List.forall₂_same]
  intro part _
  cases part <;> rfl

theorem Component.parts_regex_alike (mode : CaseMode) (isLast : Bool) (parts : List Part) :
    Alike mode (partsRegex .named isLast parts) (partsRegex .silent isLast parts) := by
  unfold partsRegex
  split
  · exact alike_concat (List.rel_append (Part.regexes_alike mode _) (alike_refl _))
  · exact alike_concat (Part.regexes_alike mode parts)

namespace Glob

theorem component_regexes_alike (mode : CaseMode) (due opening : Bool)
    (components : List Component) :
    List.Forall₂ (Alike mode) (componentRegexes .named due opening components)
      (componentRegexes .silent due opening components) := by
  induction components generalizing due opening with
  | nil => exact .nil
  | cons component rest ih =>
      cases component with
      | globstar => exact List.rel_append (alike_refl _) (ih opening false)
      | literal text => exact List.rel_append (alike_refl _) (.cons rfl (ih true false))
      | compound parts =>
          exact List.rel_append (alike_refl _)
            (.cons (Component.parts_regex_alike mode rest.isEmpty parts) (ih true false))

theorem regex_found_named (mode : CaseMode) (glob : Glob) (text : Text) :
    (glob.regex mode .named).found text = (glob.regex mode .silent).found text := by
  have alike := alike_concat (component_regexes_alike mode true (!glob.rooted) glob.components)
  rw [Bool.eq_iff_iff, regex_found_iff, regex_found_iff, alike]

end Glob

namespace Part

variable {mode : CaseMode}

theorem Describes.anonymous {part : Part} {taken : Text} (described : part.Describes mode taken) :
    part.anonymous.Describes mode taken := by
  cases part <;> exact described

theorem describe_all_anonymous {parts : List Part} {taken : Text}
    (described : DescribeAll mode parts taken) : DescribeAll mode (parts.map anonymous) taken := by
  induction parts generalizing taken with
  | nil => exact described
  | cons part parts ih =>
      obtain ⟨stretch, rest, rfl, first, others⟩ := described
      exact ⟨stretch, rest, rfl, first.anonymous, ih others⟩

theorem describe_all_merge {parts : List Part} {taken : Text}
    (described : DescribeAll mode parts taken) : DescribeAll mode (merge parts) taken := by
  fun_induction merge parts generalizing taken with
  | case1 rest ih =>
      obtain ⟨first, -, rfl, ⟨some, noColon⟩, second, others, rfl, ⟨-, free⟩, behind⟩ := described
      apply ih
      refine ⟨first ++ second, others, (List.append_assoc ..).symm, ⟨?_, ?_⟩, behind⟩
      · simp [some]
      · simp [noColon, free]
  | case2 part rest other ih =>
      obtain ⟨stretch, left, rfl, first, others⟩ := described
      exact ⟨stretch, left, rfl, first, ih others⟩
  | case3 => exact described

theorem merge_append_literal (parts : List Part) (text : Text) (others : List Part) :
    merge (parts ++ .literal text :: others) = merge parts ++ .literal text :: merge others := by
  fun_induction merge parts with
  | case1 rest ih => exact ih
  | case2 part rest other ih =>
      rw [List.cons_append, merge, ih]
      · rfl
      · intro left star stars
        cases rest with
        | nil => cases stars
        | cons next rest =>
            obtain ⟨rfl, -⟩ := List.cons.inj stars
            exact other rest star rfl
  | case3 => rfl

/-- What parts take, they take without names and with one `*` for several. -/
theorem describe_all_plain {parts : List Part} {taken : Text}
    (described : DescribeAll mode parts taken) :
    DescribeAll mode (merge (parts.map anonymous)) taken :=
  describe_all_merge (describe_all_anonymous described)

end Part

theorem Component.describe_segment_plain {mode : CaseMode} {isLast : Bool} {parts : List Part}
    {segment : Text} (described : DescribeSegment mode isLast parts segment) :
    DescribeSegment mode isLast (Part.merge (parts.map Part.anonymous)) segment := by
  rcases described with whole | ⟨last, before, stem, rfl, bare, suffix, rfl, inBare, isSuffix⟩
  · exact .inl (Part.describe_all_plain whole)
  · right
    refine ⟨last, Part.merge (before.map Part.anonymous), stem, ?_, bare, suffix, rfl, ?_, isSuffix⟩
    · rw [List.map_append]
      exact Part.merge_append_literal _ _ _
    · have plain := Part.describe_all_plain inBare
      rw [List.map_append] at plain
      exact Part.merge_append_literal _ stem [] ▸ plain

end PathGlob
