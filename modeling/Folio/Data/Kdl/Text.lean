import Folio.Data.Kdl.Document
import Folio.Data.Width
import Folio.Text.Quoted
import Folio.Text.Reader

/-!
# Names, strings and numbers of KDL

The characters that may stand in a bare name, the quoted, raw and multi-line
strings, and the numbers. A multi-line string loses the indentation of its last
line from every line.
-/

namespace Folio.Kdl

/-- The blanks inside a line. -/
def isSpace (c : Char) : Bool :=
  let n := c.toNat
  n = 9 || n = 0x20 || n = 0xA0 || n = 0x1680 || (0x2000 ≤ n && n ≤ 0x200A) || n = 0x202F ||
    n = 0x205F || n = 0x3000

/-- The characters that end a line. -/
def isNewline (c : Char) : Bool :=
  let n := c.toNat
  (10 ≤ n && n ≤ 13) || n = 0x85 || n = 0x2028 || n = 0x2029

/-- The characters that may stand nowhere but in a comment. -/
def isDisallowed (c : Char) : Bool :=
  let n := c.toNat
  n ≤ 8 || (0xE ≤ n && n ≤ 0x1F) || n = 0x7F || n = 0x200E || n = 0x200F ||
    (0x202A ≤ n && n ≤ 0x202E) || (0x2066 ≤ n && n ≤ 0x2069) || n = 0xFEFF

/-- The characters of a bare name. -/
def isNameChar (c : Char) : Bool :=
  !isSpace c && !isNewline c && !isDisallowed c && c ∉ ['\\', '/', '(', ')', '\x7b', '\x7d', ';',
    '[', ']', '"', '#', '=']

/-- Words that are no bare names, because a keyword looks like them. -/
def reserved : List Text :=
  ["true", "false", "null", "inf", "-inf", "nan"].map String.toList

/-- Takes one line break; a carriage return and a newline are one. -/
def newline : Reader Unit
  | '\r' :: '\n' :: rest => some ((), rest)
  | c :: rest => if isNewline c then some ((), rest) else none
  | [] => none

/-- Whether a run of name characters is a name rather than a number. -/
def isBareName (t : Text) : Bool :=
  match t with
  | [] => false
  | c :: rest =>
    let unsigned := if c = '+' ∨ c = '-' then rest else t
    let tail := if unsigned.head? = some '.' then unsigned.drop 1 else unsigned
    t ∉ reserved && !(tail.head?.any Char.isDigit)

/-- Reads a bare name. -/
def bareName : Reader Text := do
  let t ← Reader.run1 isNameChar
  if isBareName t then return t else Reader.refuse

/-- The character that a one-letter escape stands for. -/
def escape? : Char → Option Char
  | '"' => some '"'
  | '\\' => some '\\'
  | 'b' => some '\x08'
  | 'f' => some '\x0c'
  | 'n' => some '\n'
  | 'r' => some '\r'
  | 't' => some '\t'
  | 's' => some ' '
  | _ => none

/-- Whether a character is a blank or ends a line. -/
def isGap (c : Char) : Bool :=
  isSpace c || isNewline c

/-- Reads the escape of one character. -/
def escaped : Reader Char := do
  Reader.char '\\'
  let c ← Reader.anyChar
  if c = 'u' then do
    Reader.char '\x7b'
    let digits ← Reader.run1 fun c => (Quoted.hexDigit? c).isSome
    Reader.char '\x7d'
    if digits.length > 6 then Reader.refuse
    match (Quoted.hexValue? digits).bind Quoted.scalar? with
    | some d => return d
    | none => Reader.refuse
  else
    match escape? c with
    | some d => return d
    | none => Reader.refuse

/-- Reads an escape of blanks, which stands for nothing. -/
def escapedGap : Reader Unit := do
  Reader.char '\\'
  let _ ← Reader.run1 isGap

/-- Reads a part of a quoted string. -/
def quotedPart : Reader Text :=
  (do escapedGap; return []) <|> (do return [← escaped]) <|>
    (do return [← Reader.satisfy fun c => c ≠ '"' && c ≠ '\\' && !isNewline c && !isDisallowed c])

/-- Reads a quoted string of one line. -/
def quotedString : Reader Text := do
  Reader.char '"'
  let parts ← Reader.many quotedPart
  Reader.char '"'
  return parts.flatten

/-- Cuts a text at its line breaks. -/
def splitLines : Text → List Text
  | [] => [[]]
  | '\r' :: '\n' :: rest => [] :: splitLines rest
  | c :: rest =>
    if isNewline c then [] :: splitLines rest
    else (splitLines rest).modifyHead (c :: ·)

/-- Removes the indentation of the last line from every line. A line of blanks
becomes empty; any other line has to begin with the indentation. -/
def dedent? (body : Text) : Option Text :=
  match splitLines body with
  | [] :: rest =>
    match rest.getLast? with
    | none => none
    | some indent =>
      if indent.all isSpace then
        (rest.dropLast.mapM fun (line : Text) =>
          if line.all isSpace then some [] else indent.isPrefixOf? line).map
            (Text.join ['\n'])
      else none
  | _ => none

/-- Reads a piece of a multi-line string, as it is written but for escaped
blanks, which are dropped. -/
def multiLinePart : Reader Text :=
  (do escapedGap; return []) <|>
    (do Reader.char '\\'; return ['\\', ← Reader.anyChar]) <|>
    (do
      Reader.notHere (Reader.literal ['"', '"', '"'])
      return [← Reader.satisfy fun c => c ≠ '\\' && !isDisallowed c])

/-- Reads a text with escapes up to its end. -/
def unescaped : Reader Text := do
  let cs ← Reader.many (escaped <|> Reader.satisfy (· ≠ '\\'))
  Reader.atEnd
  return cs

/-- Reads a multi-line string. -/
def multiLineString : Reader Text := do
  Reader.literal ['"', '"', '"']
  let parts ← Reader.many multiLinePart
  Reader.literal ['"', '"', '"']
  match (dedent? parts.flatten).bind (Reader.readAll unescaped) with
  | some t => return t
  | none => Reader.refuse

/-- Reads a raw string: between number signs, and without escapes. -/
def rawString : Reader Text := do
  let hashes ← Reader.run1 (· = '#')
  if ← Reader.startsWith ['"', '"', '"'] then
    let close := ['"', '"', '"'] ++ hashes
    Reader.literal ['"', '"', '"']
    let body ← Reader.many do
      Reader.notHere (Reader.literal close)
      Reader.satisfy (!isDisallowed ·)
    Reader.literal close
    match dedent? body with
    | some t => return t
    | none => Reader.refuse
  else
    let close := '"' :: hashes
    Reader.char '"'
    let body ← Reader.many do
      Reader.notHere (Reader.literal close)
      Reader.satisfy fun c => !isNewline c && !isDisallowed c
    Reader.literal close
    return body

/-- Reads a string of any kind. A raw string of three quotes is tried before
one of a single quote. -/
def string : Reader Text :=
  bareName <|> multiLineString <|> quotedString <|> rawString

/-- Reads a string and keeps how it is written. -/
def name : Reader Name := fun t =>
  (string t).map fun (value, rest) => (⟨value, t.take (t.length - rest.length)⟩, rest)

/-- Reads digits of a base, with underscores after the first. -/
def digitsOf (isDigit : Char → Bool) : Reader Text := do
  let first ← Reader.satisfy isDigit
  let rest ← Reader.run fun c => isDigit c || c = '_'
  return first :: rest.filter (· ≠ '_')

/-- The value of digits of a base up to sixteen. -/
def valueOf (base : Nat) (digits : Text) : Nat :=
  digits.foldl (fun n c => base * n + (Quoted.hexDigit? c).getD 0) 0

/-- An integer, unless it is too great. -/
def integer (negative : Bool) (n : Nat) : Reader Scalar :=
  if n ≤ Width.signedMax 128 then return .integer (if negative then -n else n) else Reader.refuse

/-- Reads an integer in base two, eight or sixteen. -/
def radixNumber (negative : Bool) : Reader Scalar := do
  Reader.char '0'
  match ← Reader.anyChar with
  | 'x' => integer negative (valueOf 16 (← digitsOf fun c => (Quoted.hexDigit? c).isSome))
  | 'o' => integer negative (valueOf 8 (← digitsOf fun c => '0' ≤ c && c ≤ '7'))
  | 'b' => integer negative (valueOf 2 (← digitsOf fun c => c = '0' || c = '1'))
  | _ => Reader.refuse

/-- Reads a decimal number. With a point or an exponent it is a double. -/
def decimalNumber (negative : Bool) : Reader Scalar := do
  let whole ← digitsOf Char.isDigit
  let fraction ← Reader.optional (Reader.char '.' *> digitsOf Char.isDigit)
  let exponent ← Reader.optional do
    let _ ← Reader.satisfy fun c => c = 'e' || c = 'E'
    let sign ← Reader.optional (Reader.satisfy fun c => c = '+' || c = '-')
    let digits ← digitsOf Char.isDigit
    let n : Int := valueOf 10 digits
    return if sign = some '-' then -n else n
  if fraction.isNone ∧ exponent.isNone then integer negative (valueOf 10 whole)
  else
    let places := fraction.getD []
    let d := Double.ofDecimal negative (valueOf 10 (whole ++ places))
      (exponent.getD 0 - places.length)
    return .float d

/-- Reads a number that is written with digits. -/
def number : Reader Scalar := do
  let sign ← Reader.optional (Reader.satisfy fun c => c = '+' || c = '-')
  let negative := sign = some '-'
  radixNumber negative <|> decimalNumber negative

/-- Reads a keyword. -/
def keyword : Reader Scalar := do
  Reader.char '#'
  match String.ofList (← Reader.run1 isNameChar) with
  | "true" => return .bool true
  | "false" => return .bool false
  | "null" => return .null
  | "inf" => return .float (.infinite false)
  | "-inf" => return .float (.infinite true)
  | "nan" => return .float .nan
  | _ => Reader.refuse

end Folio.Kdl
