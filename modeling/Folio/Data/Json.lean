import Folio.Data.Value
import Folio.Data.Width
import Folio.Text.Quoted
import Folio.Text.Reader

/-!
# JSON

`Json.read?` reads one JSON value. Lists and objects nest at most 127 deep, a
later member replaces an earlier one of the same key, and a text may not escape
half of a surrogate pair.

An integer that fits into 64 bits, with or without a sign, stays an integer. Any
other number is a double: at most nineteen or twenty leading digits, those that
fit into 64 bits, are rounded to a double, which is then multiplied or divided by
a power of ten that is a double too. A number too great for a double is refused.
-/

namespace Folio.Json

/-- The blanks between tokens. -/
def isSpace (c : Char) : Bool :=
  c = ' ' || c = '\n' || c = '\t' || c = '\r'

/-- Skips blanks. -/
def skipSpace : Reader Unit := do
  let _ ← Reader.run isSpace

/-- How many of some digits are read before the number would need more than 64
bits, and the number they make. -/
def leadingDigits (start : Nat) : Text → Nat × Text
  | [] => (start, [])
  | c :: rest =>
    let next := 10 * start + (c.toNat - '0'.toNat)
    if next > Width.unsignedMax 64 then (start, c :: rest) else leadingDigits next rest

/-- Multiplies or divides by a power of ten. Powers beyond 308 are taken in
steps. -/
def scaleByTen : Nat → Double → Int → Option Double
  | 0, f, _ => some f
  | steps + 1, f, e =>
    if e.natAbs ≤ 308 then
      if e ≥ 0 then
        let product := f.mul (.ofNat (Nat.pow 10 e.natAbs))
        if product.isFinite then some product else none
      else some (f.div (.ofNat (Nat.pow 10 e.natAbs)))
    else if f = .zero false then some f
    else if e ≥ 0 then none
    else scaleByTen steps (f.div (.ofNat (Nat.pow 10 308))) (e + 308)

/-- The double of a significand and a power of ten. -/
def double? (negative : Bool) (significand : Nat) (exponent : Int) : Option Value := do
  let f ← scaleByTen 4 (.ofNat significand) exponent
  return .number (.double (if negative then f.neg else f))

/-- The exponent of a number, when one is written. -/
def exponentPart : Reader (Option Int) := do
  match ← Reader.peek? with
  | some c =>
    if c = 'e' ∨ c = 'E' then
      let _ ← Reader.anyChar
      let sign ← Reader.optional (Reader.satisfy fun c => c = '+' || c = '-')
      let digits ← Reader.run1 Char.isDigit
      let n : Int := (digits.foldl (fun n c => 10 * n + (c.toNat - '0'.toNat)) 0 : Nat)
      return some (if sign = some '-' then -n else n)
    else return none
  | none => return none

/-- The digits after the point, when a point is written. -/
def fractionPart : Reader (Option Text) := do
  match ← Reader.peek? with
  | some '.' =>
    let _ ← Reader.anyChar
    return some (← Reader.run1 Char.isDigit)
  | _ => return none

/-- The value of a number from its parts. -/
def number? (negative : Bool) (whole : Text) (fraction : Option Text) (exponent : Option Int) :
    Option Value :=
  let (significand, beyond) := leadingDigits 0 whole
  match beyond, fraction, exponent with
  | [], none, none =>
    if !negative then some (.number (.int significand))
    else if significand = 0 ∨ -(significand : Int) < Width.signedMin 64 then
      some (.number (.double (Double.ofNat significand).neg))
    else some (.number (.int (-significand)))
  | _, _, _ =>
    let (significand, dropped) := leadingDigits significand (fraction.getD [])
    let places : Int := (fraction.getD []).length - dropped.length
    let e := exponent.getD 0
    if significand = 0 then some (.number (.double (.zero negative)))
    else if e > Width.signedMax 32 then none
    else if e < -(Width.signedMax 32 : Int) then some (.number (.double (.zero negative)))
    else double? negative significand (beyond.length - places + e)

/-- Reads a number. -/
def number : Reader Value := do
  let sign ← Reader.optional (Reader.char '-')
  let whole ← Reader.run1 Char.isDigit
  if whole.head? = some '0' ∧ whole.length > 1 then Reader.refuse
  let fraction ← fractionPart
  let exponent ← exponentPart
  fun rest => (number? sign.isSome whole fraction exponent).map fun v => (v, rest)

/-- Reads four hexadecimal digits. -/
def hex4 : Reader Nat := do
  let digits ← [(), (), (), ()].mapM fun _ => Reader.anyChar
  match Quoted.hexValue? digits with
  | some n => return n
  | none => Reader.refuse

/-- Reads what follows `\u`: one character, for which two escapes are written
when it lies beyond the basic plane. -/
def escapedUnit : Reader Char := do
  let high ← hex4
  let number ←
    if 0xD800 ≤ high ∧ high ≤ 0xDBFF then do
      Reader.literal ['\\', 'u']
      let low ← hex4
      if 0xDC00 ≤ low ∧ low ≤ 0xDFFF then
        pure (0x10000 + (high - 0xD800) * 0x400 + (low - 0xDC00))
      else Reader.refuse
    else pure high
  match Quoted.scalar? number with
  | some c => return c
  | none => Reader.refuse

/-- The character that a one-letter escape stands for. -/
def escape? : Char → Option Char
  | '"' => some '"'
  | '\\' => some '\\'
  | '/' => some '/'
  | 'b' => some '\x08'
  | 'f' => some '\x0c'
  | 'n' => some '\n'
  | 'r' => some '\r'
  | 't' => some '\t'
  | _ => none

/-- Reads one character of a string. -/
def stringChar : Reader Char := do
  let c ← Reader.anyChar
  if c = '"' ∨ c.toNat < 0x20 then Reader.refuse
  else if c = '\\' then
    let e ← Reader.anyChar
    if e = 'u' then escapedUnit
    else
      match escape? e with
      | some d => return d
      | none => Reader.refuse
  else return c

/-- Reads a string. -/
def string : Reader Text := do
  Reader.char '"'
  let cs ← Reader.many stringChar
  Reader.char '"'
  return cs

/-- Reads a comma with the blanks around it. -/
def comma : Reader Unit := do
  skipSpace
  Reader.char ','
  skipSpace

/-- Reads the items of a list or an object up to its closing character. -/
def items {α : Type} (item : Reader α) (close : Char) : Reader (List α) := do
  let _ ← Reader.anyChar
  skipSpace
  match ← Reader.optional (Reader.char close) with
  | some () => return []
  | none =>
    let all ← Reader.separatedBy item comma
    skipSpace
    Reader.char close
    return all

/-- Reads a member of an object. -/
def member (inner : Reader Value) : Reader (Text × Value) := do
  let key ← string
  skipSpace
  Reader.char ':'
  skipSpace
  return (key, ← inner)

/-- Reads a value whose items and members are read by `inner`. Without `inner`
lists and objects are refused. -/
def valueOf (inner : Option (Reader Value)) : Reader Value := do
  match ← Reader.peek?, inner with
  | some '"', _ => return .text (← string)
  | some '[', some r => return .list (← items r ']')
  | some '\x7b', some r => return .ofFields (← items (member r) '\x7d')
  | some 'n', _ => Reader.literal ['n', 'u', 'l', 'l']; return .null
  | some 't', _ => Reader.literal ['t', 'r', 'u', 'e']; return .bool true
  | some 'f', _ => Reader.literal ['f', 'a', 'l', 's', 'e']; return .bool false
  | _, _ => number

/-- Reads a value in which lists and objects nest up to the given depth. -/
def value : Nat → Reader Value
  | 0 => valueOf none
  | depth + 1 => valueOf (some (value depth))

/-- Reads a whole text as one JSON value. -/
def read? (t : Text) : Option Value :=
  Reader.readAll (skipSpace *> value 127 <* skipSpace) t

end Folio.Json
