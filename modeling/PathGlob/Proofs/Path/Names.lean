import Mathlib.Data.List.Basic
import PathGlob.Path

/-!
# Rooted paths and their names

A normalized rooted path is the list of its names, each behind a separator. This file says so for
every operation on paths: `absolute` writes such a list, and normalizing, joining, taking the parent
and taking the last name are shown to be what they should be on the list.
-/
namespace PathGlob.Path

set_option autoImplicit false

structure IsName (name : Text) : Prop where
  nonempty : name ≠ []
  notDot : name ≠ ['.']
  whole : ∀ character ∈ name, isSeparator character = false

def slashed (names : List Text) : Text := names.flatMap ('/' :: ·)

def absolute (names : List Text) : Text := '/' :: Text.joinWith '/' names

theorem slash_separator : isSeparator '/' = true := rfl

theorem slash_not_mem_of_whole {name : Text}
    (whole : ∀ character ∈ name, isSeparator character = false) : '/' ∉ name := by
  intro member
  exact absurd (whole '/' member) (by decide)

theorem IsName.slash_not_mem {name : Text} (named : IsName name) : '/' ∉ name :=
  slash_not_mem_of_whole named.whole

theorem get_last_ne_slash {name : Text} (nonempty : name ≠ []) (free : '/' ∉ name) (before : Text) :
    (before ++ name).getLast? ≠ some '/' := by
  intro ends
  rw [List.getLast?_append_of_ne_nil before nonempty] at ends
  exact free (List.mem_of_getLast? ends)

@[simp] theorem slashed_nil : slashed [] = [] := rfl

@[simp] theorem slashed_cons (name : Text) (names : List Text) :
    slashed (name :: names) = '/' :: (name ++ slashed names) := by
  simp [slashed]

theorem slashed_append (left right : List Text) :
    slashed (left ++ right) = slashed left ++ slashed right := List.flatMap_append

theorem join_with_cons (name : Text) (names : List Text) :
    Text.joinWith '/' (name :: names) = name ++ slashed names := by
  induction names generalizing name with
  | nil => simp [Text.joinWith]
  | cons next names ih =>
      have rest := ih next
      simp only [Text.joinWith] at rest ⊢
      rw [List.intercalate_cons_cons, rest]
      simp

theorem absolute_cons (name : Text) (names : List Text) :
    absolute (name :: names) = slashed (name :: names) := by
  rw [absolute, join_with_cons, slashed_cons]

theorem absolute_eq_slashed {names : List Text} (nonempty : names ≠ []) :
    absolute names = slashed names := by
  cases names with
  | nil => exact absurd rfl nonempty
  | cons name names => exact absolute_cons name names

theorem absolute_concat (names : List Text) (name : Text) :
    absolute (names ++ [name]) = slashed names ++ '/' :: name := by
  rw [absolute_eq_slashed (by simp), slashed_append]
  simp

theorem split_append {cut : Char → Bool} {separator : Char} (cuts : cut separator = true)
    (left right : Text) :
    Text.split cut (left ++ separator :: right) = Text.split cut left ++ Text.split cut right := by
  induction left with
  | nil => simp [Text.split, cuts]
  | cons first left ih =>
      obtain ⟨piece, pieces, split⟩ := List.exists_cons_of_ne_nil (Text.split_ne_nil cut left)
      rw [split] at ih
      by_cases here : cut first = true <;> simp [Text.split, here, ih, split]

theorem split_append_cut {cut : Char → Bool} {piece : Text} {separator : Char} (rest : Text)
    (kept : ∀ character ∈ piece, cut character = false) (cuts : cut separator = true) :
    Text.split cut (piece ++ separator :: rest) = piece :: Text.split cut rest := by
  rw [split_append cuts, Text.split_of_none cut piece kept]
  rfl

theorem split_pieces_kept (cut : Char → Bool) (text : Text) :
    ∀ piece ∈ Text.split cut text, ∀ character ∈ piece, cut character = false := by
  induction text with
  | nil => simp [Text.split]
  | cons first rest ih =>
      cases split : Text.split cut rest with
      | nil => exact absurd split (Text.split_ne_nil cut rest)
      | cons piece pieces =>
          rw [split] at ih
          by_cases cuts : cut first = true
          · simp only [Text.split, cuts, if_true, split]
            intro other member
            rcases List.mem_cons.mp member with rfl | later
            · simp
            · exact ih other later
          · simp only [Text.split, cuts, split]
            intro other member character inside
            rcases List.mem_cons.mp member with rfl | later
            · rcases List.mem_cons.mp inside with rfl | inPiece
              · simpa using cuts
              · exact ih piece (by simp) character inPiece
            · exact ih other (by simp [later]) character inside

theorem mem_of_mem_split {cut : Char → Bool} {text piece : Text}
    (among : piece ∈ Text.split cut text) {character : Char} (inside : character ∈ piece) :
    character ∈ text := by
  induction text generalizing piece with
  | nil =>
      rw [List.mem_singleton.mp among] at inside
      cases inside
  | cons first rest ih =>
      rw [Text.split] at among
      split at among
      · rcases List.mem_cons.mp among with rfl | later
        · cases inside
        · exact List.mem_cons_of_mem _ (ih later inside)
      · split at among
        · rw [List.mem_singleton.mp among] at inside
          exact List.mem_singleton.mp inside ▸ List.mem_cons_self
        · rename_i head pieces same
          rw [same] at ih
          rcases List.mem_cons.mp among with rfl | later
          · rcases List.mem_cons.mp inside with rfl | inHead
            · exact List.mem_cons_self
            · exact List.mem_cons_of_mem _ (ih List.mem_cons_self inHead)
          · exact List.mem_cons_of_mem _ (ih (List.mem_cons_of_mem _ later) inside)

theorem mem_of_mem_segments {path name : Text} (among : name ∈ segments path) {character : Char}
    (inside : character ∈ name) : character ∈ path :=
  mem_of_mem_split (List.mem_filter.mp among).1 inside

theorem is_name_of_mem_segments {path name : Text} (member : name ∈ segments path) :
    IsName name := by
  rw [segments, List.mem_filter, Bool.and_eq_true, decide_eq_true_eq, decide_eq_true_eq] at member
  exact ⟨member.2.1, member.2.2, split_pieces_kept isSeparator path name member.1⟩

theorem split_join_with {cut : Char → Bool} {separator : Char} (cuts : cut separator = true)
    {pieces : List Text} (nonempty : pieces ≠ [])
    (kept : ∀ piece ∈ pieces, ∀ character ∈ piece, cut character = false) :
    Text.split cut (Text.joinWith separator pieces) = pieces := by
  induction pieces with
  | nil => exact absurd rfl nonempty
  | cons piece pieces ih =>
      cases pieces with
      | nil =>
          rw [Text.joinWith, List.intercalate_singleton]
          exact Text.split_of_none cut piece (kept piece (by simp))
      | cons next pieces =>
          have rest := ih (by simp) fun other member => kept other (by simp [member])
          rw [Text.joinWith] at rest ⊢
          rw [List.intercalate_cons_cons, List.append_assoc, List.singleton_append,
            split_append_cut _ (kept piece (by simp)) cuts, rest]

/-- The segments around a separator are those before it and those behind it. -/
theorem segments_around {separator : Char} (separates : isSeparator separator = true)
    (left right : Text) :
    segments (left ++ separator :: right) = segments left ++ segments right := by
  rw [segments, split_append separates, List.filter_append]
  rfl

theorem segments_append (left right : Text) :
    segments (left ++ '/' :: right) = segments left ++ segments right :=
  segments_around slash_separator left right

theorem segments_join_with {names : List Text} (named : ∀ name ∈ names, IsName name) :
    segments (Text.joinWith '/' names) = names := by
  cases names with
  | nil => rfl
  | cons name names =>
      rw [segments, split_join_with slash_separator (by simp) fun other member =>
        (named other member).whole]
      apply List.filter_eq_self.mpr
      intro other member
      simp [(named other member).nonempty, (named other member).notDot]

theorem segments_absolute {names : List Text} (named : ∀ name ∈ names, IsName name) :
    segments (absolute names) = names := by
  have rest := segments_join_with named
  rw [segments] at rest ⊢
  rw [absolute, ← List.nil_append ('/' :: _), split_append_cut _ (by simp) slash_separator,
    List.filter_cons_of_neg (by simp), rest]

theorem absolute_injective {left right : List Text} (leftNamed : ∀ name ∈ left, IsName name)
    (rightNamed : ∀ name ∈ right, IsName name) (same : absolute left = absolute right) :
    left = right := by
  rw [← segments_absolute leftNamed, same, segments_absolute rightNamed]

theorem normalize_of_rooted {path : Text} (rooted : startsAtRoot path = true) :
    normalize path = absolute (segments path) := by
  rw [normalize, rooted]
  rfl

theorem normalize_of_relative {path : Text} (relative : startsAtRoot path = false) :
    normalize path = Text.joinWith '/' (segments path) := by
  rw [normalize, relative]
  rfl

theorem normalize_eq_nil_iff {path : Text} (relative : startsAtRoot path = false) :
    normalize path = [] ↔ segments path = [] := by
  rw [normalize_of_relative relative]
  cases same : segments path with
  | nil => simp [Text.joinWith]
  | cons name names =>
      have named : IsName name := is_name_of_mem_segments (same ▸ List.mem_cons_self)
      simp [join_with_cons, named.nonempty]

theorem normalize_absolute {names : List Text} (named : ∀ name ∈ names, IsName name) :
    normalize (absolute names) = absolute names := by
  rw [normalize_of_rooted rfl, segments_absolute named]

@[simp] theorem is_rooted_absolute (names : List Text) : isRooted (absolute names) = true := rfl

theorem is_rooted_of_starts_not {path : Text} (relative : startsAtRoot path = false) :
    isRooted path = false := by
  cases path with
  | nil => rfl
  | cons first rest =>
      simp only [startsAtRoot, List.head?_cons, Option.any_some, isSeparator,
        Bool.or_eq_false_iff] at relative
      simpa [isRooted] using relative.1

theorem is_rooted_join_with {names : List Text} (named : ∀ name ∈ names, IsName name) :
    isRooted (Text.joinWith '/' names) = false := by
  cases names with
  | nil => rfl
  | cons name names =>
      have first := named name (by simp)
      rw [join_with_cons]
      cases name with
      | nil => exact absurd rfl first.nonempty
      | cons character name =>
          have other : character ≠ '/' := by
            intro equal
            subst equal
            exact first.slash_not_mem (by simp)
          simpa [isRooted] using other

theorem is_rooted_normalize (path : Text) : isRooted (normalize path) = startsAtRoot path := by
  cases root : startsAtRoot path with
  | true => rw [normalize_of_rooted root, is_rooted_absolute]
  | false =>
      rw [normalize_of_relative root]
      exact is_rooted_join_with fun _ member => is_name_of_mem_segments member

theorem resolve_of_rooted {path : Text} (base : Text) (rooted : startsAtRoot path = true) :
    resolve base path = normalize path := by
  rw [resolve, is_rooted_normalize, rooted]
  rfl

theorem resolve_absolute {names : List Text} (named : ∀ name ∈ names, IsName name) (base : Text) :
    resolve base (absolute names) = absolute names := by
  rw [resolve, normalize_absolute named, is_rooted_absolute]
  rfl

theorem drop_while_slash_of_relative {text : Text} (relative : isRooted text = false) :
    text.dropWhile (· == '/') = text := by
  cases text with
  | nil => rfl
  | cons first rest => exact List.dropWhile_cons_of_neg (by simpa [isRooted] using relative)

theorem drop_while_slash_of_not_mem {name : Text} (free : '/' ∉ name) :
    name.dropWhile (· == '/') = name := by
  apply drop_while_slash_of_relative
  rw [isRooted, beq_eq_false_iff_ne]
  exact fun slash => free (List.mem_of_mem_head? slash)

theorem join_absolute_text {names : List Text} {text : Text}
    (named : ∀ name ∈ names, IsName name) (relative : text.dropWhile (· == '/') = text) :
    join (absolute names) text = slashed names ++ '/' :: text := by
  rcases List.eq_nil_or_concat' names with rfl | ⟨init, last, rfl⟩
  · simp [join, relative, absolute, Text.joinWith]
  · have lastName := named last (by simp)
    have ends : (absolute (init ++ [last])).getLast? ≠ some '/' := by
      rw [absolute_concat, List.append_cons]
      exact get_last_ne_slash lastName.nonempty lastName.slash_not_mem _
    have occupied : (absolute (init ++ [last])).isEmpty = false := rfl
    rw [join, relative, occupied]
    simp only [Bool.false_eq_true, if_false, beq_iff_eq, ends]
    rw [absolute_eq_slashed (by simp)]

theorem join_absolute {names : List Text} {name : Text}
    (named : ∀ other ∈ names, IsName other) (free : '/' ∉ name) :
    join (absolute names) name = absolute (names ++ [name]) := by
  rw [join_absolute_text named (drop_while_slash_of_not_mem free), absolute_concat]

theorem take_while_no_slash {name : Text} (before : Text) (free : '/' ∉ name) :
    (name.reverse ++ '/' :: before).takeWhile (· != '/') = name.reverse := by
  rw [List.takeWhile_append_of_pos]
  · simp
  · intro character member
    rw [bne_iff_ne]
    intro equal
    subst equal
    exact free (List.mem_reverse.mp member)

theorem drop_while_no_slash {name : Text} (before : Text) (free : '/' ∉ name) :
    (name.reverse ++ '/' :: before).dropWhile (· != '/') = '/' :: before := by
  rw [List.dropWhile_append_of_pos]
  · simp
  · intro character member
    rw [bne_iff_ne]
    intro equal
    subst equal
    exact free (List.mem_reverse.mp member)

theorem file_name_absolute (names : List Text) {name : Text} (free : '/' ∉ name) :
    fileName (absolute (names ++ [name])) = name := by
  rw [fileName, absolute_concat]
  simp only [List.reverse_append, List.reverse_cons, List.append_assoc, List.singleton_append]
  rw [take_while_no_slash _ free, List.reverse_reverse]

theorem parent_absolute (names : List Text) {name : Text} (named : IsName name) :
    parent? (absolute (names ++ [name])) = some (absolute names) := by
  rw [parent?, absolute_concat]
  simp only [List.reverse_append, List.reverse_cons, List.append_assoc, List.singleton_append]
  rw [drop_while_no_slash _ named.slash_not_mem]
  rcases List.eq_nil_or_concat' names with rfl | ⟨init, last, rfl⟩
  · simp [named.nonempty, absolute, Text.joinWith]
  · cases reversed : (slashed (init ++ [last])).reverse with
    | nil => simp [slashed_append] at reversed
    | cons first rest =>
        have whole : (first :: rest).reverse = absolute (init ++ [last]) := by
          rw [← reversed, List.reverse_reverse, absolute_eq_slashed (by simp)]
        exact congrArg some whole

theorem eq_of_parent_eq {names front : List Text} (named : ∀ name ∈ names, IsName name)
    (frontNamed : ∀ name ∈ front, IsName name)
    (below : parent? (absolute names) = some (absolute front)) :
    ∃ name, names = front ++ [name] := by
  rcases List.eq_nil_or_concat' names with rfl | ⟨init, last, rfl⟩
  · cases below
  · rw [parent_absolute init (named last (by simp)), Option.some.injEq] at below
    have same := absolute_injective (fun name member => named name (List.mem_append_left _ member))
      frontNamed below
    exact ⟨last, by rw [same]⟩

def IsPlace (path : Text) : Prop := ∃ names, (∀ name ∈ names, IsName name) ∧ path = absolute names

theorem is_place_root : IsPlace ['/'] := ⟨[], by simp, rfl⟩

theorem is_place_segments (path : Text) : IsPlace (absolute (segments path)) :=
  ⟨segments path, fun _ member => is_name_of_mem_segments member, rfl⟩

theorem is_place_normalize {path : Text} (rooted : startsAtRoot path = true) :
    IsPlace (normalize path) :=
  normalize_of_rooted rooted ▸ is_place_segments path

namespace IsPlace

variable {path name : Text}

theorem resolve_eq (place : IsPlace path) (base : Text) : resolve base path = path := by
  obtain ⟨names, named, rfl⟩ := place
  exact resolve_absolute named base

theorem normalize_eq (place : IsPlace path) : normalize path = path := by
  obtain ⟨names, named, rfl⟩ := place
  exact normalize_absolute named

theorem join (place : IsPlace path) (named : IsName name) : IsPlace (join path name) := by
  obtain ⟨names, others, rfl⟩ := place
  refine ⟨names ++ [name], ?_, join_absolute others named.slash_not_mem⟩
  intro other member
  rcases List.mem_append.mp member with earlier | last
  · exact others other earlier
  · rw [List.mem_singleton.mp last]
    exact named

theorem parent_join (place : IsPlace path) (named : IsName name) :
    parent? (Path.join path name) = some path := by
  obtain ⟨names, others, rfl⟩ := place
  rw [join_absolute others named.slash_not_mem]
  exact parent_absolute names named

end IsPlace

theorem resolve_root (path : Text) : resolve ['/'] path = absolute (segments path) := by
  rw [resolve, is_rooted_normalize]
  cases root : startsAtRoot path with
  | true => exact normalize_of_rooted root
  | false =>
      have relative := is_rooted_normalize path
      rw [root, normalize_of_relative root] at relative
      rw [if_neg Bool.false_ne_true, normalize_of_relative root, Path.join]
      rw [drop_while_slash_of_relative relative]
      rfl

end PathGlob.Path
