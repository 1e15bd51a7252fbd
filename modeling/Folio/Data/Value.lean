import Folio.Decimal.Layout
import Folio.Dict

/-!
# Structured values

The value that a file of global variables holds, whatever its format: null,
booleans, numbers, texts, lists, and objects ordered by their keys.
`Value.write` is its JSON text without any blanks.
-/

namespace Folio

/-- A number is an integer or a double. -/
inductive Number where
  | int (i : Int)
  | double (d : Double)
deriving DecidableEq, Inhabited

/-- A structured value. The fields of an object are ordered by their keys. -/
inductive Value where
  | null
  | bool (b : Bool)
  | number (n : Number)
  | text (t : Text)
  | list (items : List Value)
  | object (fields : List (Text × Value))
deriving Inhabited

/-- The JSON text of a number. -/
def Number.write : Number → Text
  | .int i => Text.ofInt i
  | .double d => Layout.json.write d

namespace Value

/-- An object with the given fields, in which a later field replaces an earlier
one of the same key. -/
def ofFields (fields : List (Text × Value)) : Value :=
  .object (fields.foldl (fun l e => insertEntry e.1 e.2 l) [])

/-- A double as a value; a number that is not finite has no JSON form and
becomes the text that names it. -/
def ofDouble (d : Double) : Value :=
  if d.isFinite then .number (.double d) else .text (Layout.positional.write d)

/-- A hexadecimal digit below sixteen. -/
def hexDigit (n : Nat) : Char :=
  (Nat.toDigits 16 n).headD '0'

/-- A character inside a JSON string. -/
def escapeChar (c : Char) : Text :=
  if c = '"' then ['\\', '"']
  else if c = '\\' then ['\\', '\\']
  else if c = '\x08' then ['\\', 'b']
  else if c = '\x0c' then ['\\', 'f']
  else if c = '\n' then ['\\', 'n']
  else if c = '\r' then ['\\', 'r']
  else if c = '\t' then ['\\', 't']
  else if c.toNat < 0x20 then
    ['\\', 'u', '0', '0', hexDigit (c.toNat / 16), hexDigit (c.toNat % 16)]
  else [c]

/-- The JSON string of a text. -/
def quote (t : Text) : Text :=
  '"' :: t.flatMap escapeChar ++ ['"']

mutual

/-- The JSON text of a value. -/
def write : Value → Text
  | .null => ['n', 'u', 'l', 'l']
  | .bool true => ['t', 'r', 'u', 'e']
  | .bool false => ['f', 'a', 'l', 's', 'e']
  | .number n => n.write
  | .text t => quote t
  | .list items => '[' :: Text.join [','] (writeItems items) ++ [']']
  | .object fields => '\x7b' :: Text.join [','] (writeFields fields) ++ ['\x7d']

/-- The JSON texts of the items of a list. -/
def writeItems : List Value → List Text
  | [] => []
  | v :: rest => write v :: writeItems rest

/-- The JSON texts of the fields of an object. -/
def writeFields : List (Text × Value) → List Text
  | [] => []
  | (k, v) :: rest => (quote k ++ ':' :: write v) :: writeFields rest

end

end Value

end Folio
