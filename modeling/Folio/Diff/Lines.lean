import Folio.Diff.Basic
import Folio.Text.Basic

/-!
# Comparing texts by their lines

A line ends behind a line feed, a carriage return, or both in this order, and
keeps what ends it; the last line may have no end.
-/

namespace Folio.Diff

/-- The lines of a text, when `line` holds the characters of the current line from
the last to the first. -/
def linesFrom (line : Text) : Text → List Text
  | [] => if line.isEmpty then [] else [line.reverse]
  | '\r' :: '\n' :: rest => ('\n' :: '\r' :: line).reverse :: linesFrom [] rest
  | c :: rest =>
    if c = '\n' ∨ c = '\r' then (c :: line).reverse :: linesFrom [] rest
    else linesFrom (c :: line) rest

/-- The lines of a text, each with its end. -/
def lines (text : Text) : List Text :=
  linesFrom [] text

/-- Whether a line has an end. -/
def hasEnd (line : Text) : Bool :=
  line.getLast? = some '\n' || line.getLast? = some '\r'

/-- Compares the lines of two texts. -/
def compareLines (old new : Text) : List (DiffKind × Text) :=
  compare (lines old) (lines new)

theorem flatten_linesFrom (line text : Text) :
    (linesFrom line text).flatten = line.reverse ++ text := by
  fun_induction linesFrom line text with
  | case1 line => by_cases h : line = [] <;> simp_all
  | case2 => simp_all
  | case3 => simp_all
  | case4 => simp_all
  | case5 => simp_all

/-- Nothing of a text is lost. -/
theorem flatten_lines (text : Text) : (lines text).flatten = text :=
  flatten_linesFrom [] text

end Folio.Diff
