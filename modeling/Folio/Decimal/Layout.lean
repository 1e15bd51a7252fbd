import Folio.Decimal.Shortest
import Folio.Text.Basic

/-!
# The layout of decimals

A `Layout` says which decimals are written with all their places and which with
an exponent, and whether a whole number keeps a zero after its point.
-/

namespace Folio

/-- How a double is written. -/
structure Layout where
  /-- The least decimal exponent, and the first one too great, of a number that
  is written without an exponent; `none` when every number is. -/
  plain : Option (Int × Int)
  /-- Whether a whole number is written with `.0`. -/
  keepPoint : Bool

namespace Layout

/-- A number of the JSON format: an exponent below 0.00001 and from 1e16. -/
def json : Layout :=
  ⟨some (-5, 16), true⟩

/-- A number with all its places. -/
def positional : Layout :=
  ⟨none, false⟩

/-- The decimal `d` with all its places. -/
def writePlain (l : Layout) (d : Decimal) : Text :=
  let digits := Text.ofNat d.digits
  if d.exponent ≥ 0 then
    digits ++ List.replicate d.exponent.toNat '0' ++ (if l.keepPoint then ['.', '0'] else [])
  else
    let places := (-d.exponent).toNat
    if digits.length > places then
      digits.take (digits.length - places) ++ '.' :: digits.drop (digits.length - places)
    else '0' :: '.' :: List.replicate (places - digits.length) '0' ++ digits

/-- The decimal `d` with one digit in front of the point and an exponent. -/
def writeScientific (d : Decimal) : Text :=
  let digits := Text.ofNat d.digits
  let e : Int := d.exponent + digits.length - 1
  let fraction := if digits.length = 1 then [] else '.' :: digits.drop 1
  let sign := if e < 0 then '-' else '+'
  digits.take 1 ++ fraction ++ 'e' :: sign :: Text.ofNat e.natAbs

/-- A double in a layout. -/
def write (l : Layout) : Double → Text
  | .nan => ['N', 'a', 'N']
  | .infinite negative => (if negative then ['-'] else []) ++ ['i', 'n', 'f']
  | .finite negative m q =>
    let sign := if negative then ['-'] else []
    if m = 0 then sign ++ (if l.keepPoint then ['0', '.', '0'] else ['0'])
    else
      let d := Double.shortest m q
      let e : Int := d.exponent + Decimal.width d.digits - 1
      match l.plain with
      | none => sign ++ l.writePlain d
      | some (low, high) =>
        sign ++ (if low ≤ e ∧ e < high then l.writePlain d else writeScientific d)

end Layout

end Folio
