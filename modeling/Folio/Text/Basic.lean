/-!
# Text and its byte offsets

A text is a list of characters, so that every function of the library recurses
over it. Offsets into a text count the bytes of its UTF-8 form. `Text.slice?`
cuts between two offsets and answers `none` when an offset lies outside the
text or inside a character.
-/

namespace Folio

/-- A text, character by character. -/
abbrev Text := List Char

namespace Text

/-- The number of bytes of the UTF-8 form. -/
def size : Text → Nat
  | [] => 0
  | c :: t => c.utf8Size + size t

/-- What follows the first `n` bytes. -/
def dropBytes? : Nat → Text → Option Text
  | 0, t => some t
  | _ + 1, [] => none
  | n + 1, c :: t => if c.utf8Size ≤ n + 1 then dropBytes? (n + 1 - c.utf8Size) t else none
termination_by _ t => t.length

/-- The first `n` bytes. -/
def takeBytes? : Nat → Text → Option Text
  | 0, _ => some []
  | _ + 1, [] => none
  | n + 1, c :: t =>
    if c.utf8Size ≤ n + 1 then (takeBytes? (n + 1 - c.utf8Size) t).map (c :: ·) else none
termination_by _ t => t.length

/-- The text from byte offset `start` up to byte offset `stop`. -/
def slice? (t : Text) (start stop : Nat) : Option Text :=
  if start ≤ stop then (t.dropBytes? start).bind (takeBytes? (stop - start)) else none

/-- The bytes of the UTF-8 form. -/
def bytes (t : Text) : ByteArray :=
  (String.ofList t).toUTF8

/-- The text with the given UTF-8 form. -/
def ofBytes? (b : ByteArray) : Option Text :=
  (String.fromUTF8? b).map String.toList

/-- The text of a string. -/
def ofString (s : String) : Text :=
  s.toList

/-- The string of a text. -/
def toString (t : Text) : String :=
  String.ofList t

/-- Texts joined with `separator` between neighbours. -/
def join (separator : Text) (parts : List Text) : Text :=
  separator.intercalate parts

/-- The decimal digits of a number. -/
def ofNat (n : Nat) : Text :=
  Nat.toDigits 10 n

/-- A number in decimal, with a minus sign in front of a negative one. -/
def ofInt (i : Int) : Text :=
  if i < 0 then '-' :: ofNat i.natAbs else ofNat i.natAbs

/-- Replaces `A` to `Z` by their lower case. -/
def toLowerAscii (t : Text) : Text :=
  t.map Char.toLower

@[simp] theorem size_nil : size [] = 0 := rfl

@[simp] theorem size_cons (c : Char) (t : Text) : size (c :: t) = c.utf8Size + size t := rfl

@[simp] theorem size_append (s t : Text) : size (s ++ t) = size s + size t := by
  induction s with
  | nil => simp
  | cons c s ih => simp [ih, Nat.add_assoc]

end Text

end Folio
