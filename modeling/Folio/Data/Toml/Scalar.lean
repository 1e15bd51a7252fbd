import Folio.Data.Toml.Table
import Folio.Text.Quoted
import Folio.Text.Reader

/-!
# Numbers, dates and strings of TOML

`atom?` reads a number, a date, a time or a boolean from the run of characters
that spells it. A date is spelled back with a `T` before its time, with two
digits for each part and without the zeros at the end of a fraction.
-/

namespace Folio.Toml

/-- Digits with single underscores between them. -/
def digits? (isDigit : Char → Bool) (t : Text) : Option Text :=
  let groups := t.splitOn '_'
  if groups.all fun g => g ≠ [] && g.all isDigit then some groups.flatten else none

/-- The value of digits of a base up to sixteen. -/
def valueOf (base : Nat) (digits : Text) : Nat :=
  digits.foldl (fun n c => base * n + (Quoted.hexDigit? c).getD 0) 0

/-- Decimal digits without a zero in front, with the number they make. -/
def decimal? (t : Text) : Option Nat := do
  let digits ← digits? Char.isDigit t
  if digits.head? = some '0' ∧ digits.length > 1 then none else some (valueOf 10 digits)

/-- The sign in front of a number, when there is one, and the rest. -/
def splitSign (t : Text) : Option Char × Text :=
  match t with
  | '+' :: rest => (some '+', rest)
  | '-' :: rest => (some '-', rest)
  | _ => (none, t)

/-- An integer of 64 bits without a sign in front is kept whole, so that a
setting may use the range beyond that of signed integers. -/
def integer? (t : Text) : Option Item :=
  let (sign, rest) := splitSign t
  match sign, rest with
  | none, '0' :: 'x' :: hex =>
    (digits? (fun c => (Quoted.hexDigit? c).isSome) hex).map fun d => .integer (valueOf 16 d)
  | none, '0' :: 'o' :: octal =>
    (digits? (fun c => '0' ≤ c && c ≤ '7') octal).map fun d => .integer (valueOf 8 d)
  | none, '0' :: 'b' :: binary =>
    (digits? (fun c => c = '0' || c = '1') binary).map fun d => .integer (valueOf 2 d)
  | _, _ => (decimal? rest).map fun n => .integer (if sign = some '-' then -n else n)

/-- An exponent with its sign. -/
def exponent? (t : Text) : Option Int := do
  let (sign, rest) := splitSign t
  let digits ← digits? Char.isDigit rest
  let n : Int := valueOf 10 digits
  return if sign = some '-' then -n else n

/-- A number with a point or an exponent. One that is too great is refused. -/
def float? (t : Text) : Option Item := do
  let (sign, rest) := splitSign t
  let negative := sign = some '-'
  match rest with
  | ['i', 'n', 'f'] => return .float (.infinite negative)
  | ['n', 'a', 'n'] => return .float .nan
  | _ =>
    let isE (c : Char) : Bool := c = 'e' || c = 'E'
    let mantissa := rest.takeWhile (!isE ·)
    let e ← match rest.dropWhile (!isE ·) with
      | [] => some 0
      | _ :: after => exponent? after
    let whole := mantissa.takeWhile (· ≠ '.')
    let _ ← decimal? whole
    let places ← match mantissa.dropWhile (· ≠ '.') with
      | [] => if mantissa = rest then none else some []
      | _ :: after => digits? Char.isDigit after
    let digits := (whole.filter (· ≠ '_')) ++ places
    let d := Double.ofDecimal negative (valueOf 10 digits) (e - places.length)
    if d.isFinite then return .float d else none

/-- The number of days of a month. -/
def daysIn (year month : Nat) : Nat :=
  match month with
  | 2 => if year % 4 = 0 ∧ (year % 100 ≠ 0 ∨ year % 400 = 0) then 29 else 28
  | 4 => 30
  | 6 => 30
  | 9 => 30
  | 11 => 30
  | _ => 31

/-- The number that exactly `n` digits make. -/
def fixed? (n : Nat) (t : Text) : Option Nat :=
  if t.length = n ∧ t.all Char.isDigit then some (valueOf 10 t) else none

/-- A date, spelled as it is written. -/
def date? (t : Text) : Option Text := do
  match t.splitOn '-' with
  | [y, m, d] =>
    let year ← fixed? 4 y
    let month ← fixed? 2 m
    let day ← fixed? 2 d
    if 1 ≤ month ∧ month ≤ 12 ∧ 1 ≤ day ∧ day ≤ daysIn year month then some t else none
  | _ => none

/-- The fraction of a second: nine digits at most, without the zeros at the
end. -/
def fraction? (t : Text) : Option Text :=
  if t ≠ [] ∧ t.all Char.isDigit then
    let kept := ((t.take 9).reverse.dropWhile (· = '0')).reverse
    some (if kept = [] then ['0'] else kept)
  else none

/-- The seconds of a time with their fraction. -/
def seconds? (t : Text) : Option Text := do
  let whole := t.takeWhile (· ≠ '.')
  let second ← fixed? 2 whole
  if second > 60 then none
  match t.dropWhile (· ≠ '.') with
  | [] => return whole
  | _ :: after => return whole ++ '.' :: (← fraction? after)

/-- A time of the day. The seconds may be missing. -/
def time? (t : Text) : Option Text := do
  let clock (h m : Text) : Option Text := do
    let hour ← fixed? 2 h
    let minute ← fixed? 2 m
    if hour ≤ 23 ∧ minute ≤ 59 then some (h ++ ':' :: m) else none
  match t.splitOn ':' with
  | [h, m] => clock h m
  | [h, m, s] => return (← clock h m) ++ ':' :: (← seconds? s)
  | _ => none

/-- The distance of a time zone, such as `-07:00`. -/
def offset? (sign : Char) (t : Text) : Option Text := do
  match t.splitOn ':' with
  | [h, m] =>
    let hours ← fixed? 2 h
    let minutes ← fixed? 2 m
    if hours ≤ 23 ∧ minutes ≤ 59 then
      let shown := if hours = 0 ∧ minutes = 0 then '+' else sign
      some (shown :: h ++ ':' :: m)
    else none
  | _ => none

/-- A time of the day with the time zone behind it, if any. -/
def zonedTime? (t : Text) : Option Text := do
  let isZone (c : Char) : Bool := c = 'Z' || c = 'z' || c = '+' || c = '-'
  let time ← time? (t.takeWhile (!isZone ·))
  match t.dropWhile (!isZone ·) with
  | [] => return time
  | ['Z'] => return time ++ ['Z']
  | ['z'] => return time ++ ['Z']
  | '+' :: rest => return time ++ (← offset? '+' rest)
  | '-' :: rest => return time ++ (← offset? '-' rest)
  | _ => none

/-- A date with a time, joined by a letter or a blank; a date; or a time. -/
def datetime? (t : Text) : Option Item :=
  let joined : Option Text := do
    let date ← date? (t.take 10)
    match t.drop 10 with
    | [] => return date
    | c :: rest =>
      if c = 'T' ∨ c = 't' ∨ c = ' ' then return date ++ 'T' :: (← zonedTime? rest) else none
  (joined <|> time? t).map .datetime

/-- The value that a run of characters spells. -/
def atom? (t : Text) : Option Item :=
  match t with
  | ['t', 'r', 'u', 'e'] => some (.bool true)
  | ['f', 'a', 'l', 's', 'e'] => some (.bool false)
  | _ => integer? t <|> float? t <|> datetime? t

/-- The characters of a number, a date or a boolean. -/
def isAtomChar (c : Char) : Bool :=
  c.isAlphanum || c = '_' || c = '+' || c = '-' || c = '.' || c = ':'

/-- Reads a number, a date, a time or a boolean. A blank between a date and a
time belongs to the value. -/
def atom : Reader Item := do
  let first ← Reader.run1 isAtomChar
  let later ← match date? first with
    | none => pure none
    | some _ => Reader.optional do
      Reader.char ' '
      let c ← Reader.satisfy Char.isDigit
      return ' ' :: c :: (← Reader.run isAtomChar)
  match atom? (first ++ later.getD []) with
  | some i => return i
  | none => Reader.refuse

/-- The characters that may stand in a comment or, but for quotes and
backslashes, in a string of one line. -/
def isPrintable (c : Char) : Bool :=
  c = '\t' || (0x20 ≤ c.toNat && c.toNat ≠ 0x7F)

/-- Reads a line break. -/
def newline : Reader Text
  | '\n' :: rest => some (['\n'], rest)
  | '\r' :: '\n' :: rest => some (['\r', '\n'], rest)
  | _ => none

/-- Whether a character is a blank inside a line. -/
def isSpace (c : Char) : Bool :=
  c = ' ' || c = '\t'

/-- The character that a one-letter escape stands for. -/
def escape? : Char → Option Char
  | 'b' => some '\x08'
  | 't' => some '\t'
  | 'n' => some '\n'
  | 'f' => some '\x0c'
  | 'r' => some '\r'
  | 'e' => some '\x1b'
  | '"' => some '"'
  | '\\' => some '\\'
  | _ => none

/-- Reads the hexadecimal number of a character, `n` digits long. -/
def hexEscape (n : Nat) : Reader Char := fun t =>
  if (t.take n).length = n then
    ((Quoted.hexValue? (t.take n)).bind Quoted.scalar?).map fun c => (c, t.drop n)
  else none

/-- Reads an escaped character. -/
def escaped : Reader Char := do
  Reader.char '\\'
  match ← Reader.anyChar with
  | 'x' => hexEscape 2
  | 'u' => hexEscape 4
  | 'U' => hexEscape 8
  | c =>
    match escape? c with
    | some d => return d
    | none => Reader.refuse

/-- Reads a string between double quotes. -/
def basicString : Reader Text := do
  Reader.char '"'
  let cs ← Reader.many
    (escaped <|> Reader.satisfy fun c => isPrintable c && c ≠ '"' && c ≠ '\\')
  Reader.char '"'
  return cs

/-- Reads a string between single quotes, which has no escapes. -/
def literalString : Reader Text := do
  Reader.char '\''
  let cs ← Reader.run fun c => isPrintable c && c ≠ '\''
  Reader.char '\''
  return cs

/-- Reads the end of a multi-line string. Up to two quotes may touch the three
that close it; they belong to the string. -/
def closeMultiLine (q : Char) : Reader Text := do
  Reader.literal [q, q, q]
  let one ← Reader.optional (Reader.char q)
  let two ← if one.isSome then Reader.optional (Reader.char q) else pure none
  return List.replicate (one.toList.length + two.toList.length) q

/-- Reads a backslash at the end of a line, which joins the line to the next
character that is no blank. -/
def joinedLine : Reader Text := do
  Reader.char '\\'
  let _ ← Reader.run isSpace
  let _ ← newline
  let _ ← Reader.many (newline <|> Reader.run1 isSpace)
  return []

/-- Reads a part of a multi-line string in quotes `q`. -/
def multiLinePart (q : Char) (escapes : Bool) : Reader Text := do
  Reader.notHere (Reader.literal [q, q, q])
  let plain : Reader Text := newline <|> do
    return [← Reader.satisfy fun c => isPrintable c && !(escapes && c = '\\')]
  if escapes then joinedLine <|> (do return [← escaped]) <|> plain else plain

/-- Reads a multi-line string in quotes `q`. A line break right behind the
opening quotes is dropped. -/
def multiLineString (q : Char) (escapes : Bool) : Reader Text := do
  Reader.literal [q, q, q]
  let _ ← Reader.optional newline
  let parts ← Reader.many (multiLinePart q escapes)
  return parts.flatten ++ (← closeMultiLine q)

/-- Reads a string of any kind. -/
def string : Reader Text :=
  multiLineString '"' true <|> multiLineString '\'' false <|> basicString <|> literalString

end Folio.Toml
