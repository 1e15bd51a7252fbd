import Folio.Text.Basic

/-!
# Blank characters and lines

`isBlank` is the Unicode property White_Space. `Text.trim` removes blanks from
both ends and `Text.lines` cuts a text at its newlines.
-/

namespace Folio

/-- The characters with the Unicode property White_Space. -/
def isBlank (c : Char) : Bool :=
  let n := c.toNat
  (9 ≤ n && n ≤ 13) || n = 0x20 || n = 0x85 || n = 0xA0 || n = 0x1680 ||
    (0x2000 ≤ n && n ≤ 0x200A) || n = 0x2028 || n = 0x2029 || n = 0x202F || n = 0x205F ||
    n = 0x3000

/-- Every blank of ASCII is a blank. -/
theorem isBlank_of_isWhitespace {c : Char} (h : c.isWhitespace) : isBlank c := by
  simp [Char.isWhitespace] at h
  rcases h with ((h | h) | h) | h <;> subst h <;> decide

namespace Text

/-- Removes the blanks in front. -/
def trimStart (t : Text) : Text :=
  t.dropWhile isBlank

/-- Removes the blanks at the end. -/
def trimEnd (t : Text) : Text :=
  (t.reverse.dropWhile isBlank).reverse

/-- Removes the blanks at both ends. -/
def trim (t : Text) : Text :=
  t.trimStart.trimEnd

/-- Removes one carriage return at the end. -/
def dropReturn (t : Text) : Text :=
  if t.getLast? = some '\r' then t.dropLast else t

/-- The lines of a text, without the newlines, or pairs of carriage return and
newline, that end them. A newline at the very end starts no further line. -/
def lines (t : Text) : List Text :=
  let parts := t.splitOn '\n'
  let ended := parts.dropLast.map dropReturn
  match parts.getLast? with
  | none => ended
  | some [] => ended
  | some last => ended ++ [last]

end Text

end Folio
