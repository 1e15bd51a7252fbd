import Folio.Text.Basic

/-!
# Backslash escapes between quotes

`unescape` reads a text in which parts may stand between single or double
quotes. The quotes are dropped. A backslash is an escape between double quotes
only; everywhere else it stands for itself. A quote that is never closed runs to
the end of the text.
-/

namespace Folio.Quoted

/-- Where in a quoted text a reader is. -/
inductive Mode where
  | outside
  | single
  | double
deriving DecidableEq

/-- The character that a one-letter escape stands for. -/
def escape? : Char → Option Char
  | 'a' => some '\x07'
  | 'b' => some '\x08'
  | 'v' => some '\x0b'
  | 'f' => some '\x0c'
  | 'n' => some '\n'
  | 'r' => some '\r'
  | 't' => some '\t'
  | 'e' => some '\x1b'
  | 'E' => some '\x1b'
  | '\\' => some '\\'
  | '\'' => some '\''
  | '"' => some '"'
  | '$' => some '$'
  | '\x60' => some '\x60'
  | ' ' => some ' '
  | _ => none

/-- The value of a hexadecimal digit. -/
def hexDigit? (c : Char) : Option Nat :=
  if '0' ≤ c ∧ c ≤ '9' then some (c.toNat - '0'.toNat)
  else if 'a' ≤ c ∧ c ≤ 'f' then some (c.toNat - 'a'.toNat + 10)
  else if 'A' ≤ c ∧ c ≤ 'F' then some (c.toNat - 'A'.toNat + 10)
  else none

/-- The value of a run of hexadecimal digits. -/
def hexValue? (digits : Text) : Option Nat :=
  if digits = [] then none
  else digits.foldlM (fun n c => (hexDigit? c).map (16 * n + ·)) 0

/-- The character with the given number, when it is a Unicode scalar value. -/
def scalar? (n : Nat) : Option Char :=
  if h : n.isValidChar then some (Char.ofNatAux n h) else none

/-- The character whose number stands between braces. A plus sign may precede
the digits. -/
def codePoint? (digits : Text) : Option Char :=
  (hexValue? (if digits.head? = some '+' then digits.drop 1 else digits)).bind scalar?

/-- Drops the quotes and replaces the escapes; `none` when an escape is not
known. -/
def unescape (mode : Mode) (t : Text) : Option Text :=
  match mode, t with
  | _, [] => some []
  | .outside, '\'' :: rest => unescape .single rest
  | .outside, '"' :: rest => unescape .double rest
  | .single, '\'' :: rest => unescape .outside rest
  | .double, '"' :: rest => unescape .outside rest
  | .double, ['\\'] => none
  | .double, '\\' :: 'u' :: '{' :: rest =>
    match codePoint? (rest.takeWhile (· ≠ '}')) with
    | some c => (unescape .double ((rest.dropWhile (· ≠ '}')).drop 1)).map (c :: ·)
    | none => none
  | .double, '\\' :: c :: rest =>
    match escape? c with
    | some d => (unescape .double rest).map (d :: ·)
    | none => none
  | mode, c :: rest => (unescape mode rest).map (c :: ·)
termination_by t.length
decreasing_by
  all_goals simp only [List.length_cons, List.length_drop]
  iterate 4 exact Nat.lt_succ_self _
  · have := (List.dropWhile_suffix (l := rest) fun x => decide (x ≠ '}')).length_le
    omega
  · omega
  · exact Nat.lt_succ_self _

theorem unescape_nil (mode : Mode) : unescape mode [] = some [] := by
  rw [unescape]

end Folio.Quoted
