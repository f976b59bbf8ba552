/-!
# Texts

Patterns, paths and names are lists of characters. This file holds the few operations that the other
modules share: cutting a text at chosen characters, ordering texts, and measuring them in UTF-8
bytes, the unit in which positions inside a pattern are reported.
-/
namespace PathGlob

set_option autoImplicit false

abbrev Text := List Char

namespace Text

/--
Cuts a text at every character that `cut` selects. The selected characters are dropped, so a text
with `n` of them has `n + 1` pieces, some of them possibly empty.
-/
def split (cut : Char → Bool) : Text → List Text
  | [] => [[]]
  | character :: rest =>
    if cut character then [] :: split cut rest
    else
      match split cut rest with
      | [] => [[character]]
      | piece :: pieces => (character :: piece) :: pieces

def byteLength : Text → Nat
  | [] => 0
  | character :: rest => character.utf8Size + byteLength rest

/-- The order of texts by code points, which is also the order of their UTF-8 bytes. -/
def atMost : Text → Text → Bool
  | [], _ => true
  | _ :: _, [] => false
  | left :: lefts, right :: rights =>
    if left = right then atMost lefts rights else left.toNat < right.toNat

def joinWith (separator : Char) (pieces : List Text) : Text := List.intercalate [separator] pieces

theorem split_ne_nil (cut : Char → Bool) (text : Text) : split cut text ≠ [] := by
  cases text with
  | nil => simp [split]
  | cons character rest =>
      simp only [split]
      split
      · simp
      · split <;> simp

theorem split_of_none (cut : Char → Bool) (text : Text)
    (kept : ∀ character ∈ text, cut character = false) : split cut text = [text] := by
  induction text with
  | nil => rfl
  | cons character rest ih =>
      simp [split, kept character (by simp), ih fun other member => kept other (by simp [member])]

theorem byteLength_append (left right : Text) :
    byteLength (left ++ right) = byteLength left + byteLength right := by
  induction left with
  | nil => simp [byteLength]
  | cons character rest ih => simp only [List.cons_append, byteLength, ih, Nat.add_assoc]

end Text

end PathGlob
