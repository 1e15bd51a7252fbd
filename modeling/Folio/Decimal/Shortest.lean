import Folio.Decimal.Double

/-!
# The shortest decimal of a double

`Double.shortest m q` is the decimal with the fewest digits that still rounds to
`m * 2 ^ q`, and of those the nearest. For one digit, two digits and so on it
looks at the two neighbours of the number on the grid of decimals with that many
digits; the first grid with a neighbour inside the rounding interval wins.
-/

namespace Folio

/-- The decimal `digits * 10 ^ exponent`. -/
structure Decimal where
  digits : Nat
  exponent : Int
deriving DecidableEq, Inhabited

namespace Decimal

/-- The number of decimal digits; none for zero. -/
def width (n : Nat) : Nat :=
  if n = 0 then 0 else (Nat.toDigits 10 n).length

/-- Moves up to `n` zeros at the end of the digits to the exponent. -/
def dropZeros : Nat → Decimal → Decimal
  | 0, d => d
  | n + 1, d =>
    if d.digits % 10 = 0 ∧ d.digits ≠ 0 then dropZeros n ⟨d.digits / 10, d.exponent + 1⟩ else d

end Decimal

namespace Double

/-- The real numbers that round to one double, and the double itself, as
multiples of `1 / den`. The ends belong to the interval when `closed`. -/
structure Interval where
  low : Nat
  value : Nat
  high : Nat
  den : Nat
  closed : Bool

/-- The rounding interval of `m * 2 ^ q`. -/
def interval (m : Nat) (q : Int) : Interval :=
  let e := q - 2
  let scale := Nat.pow 2 e.toNat
  let below := if m = Nat.pow 2 52 ∧ q > -1074 then 1 else 2
  ⟨(4 * m - below) * scale, 4 * m * scale, (4 * m + 2) * scale, Nat.pow 2 (-e).toNat, m % 2 = 0⟩

namespace Interval

/-- The number of digits in front of the point; zero or less when the number
is below one tenth. -/
def magnitude (i : Interval) : Int :=
  if i.den ≤ i.value then Decimal.width (i.value / i.den)
  else 1 - (Decimal.width ((i.den + i.value - 1) / i.value - 1) : Int)

/-- Whether `digits * up / down` lies in the interval. -/
def holds (i : Interval) (digits up down : Nat) : Bool :=
  let x := digits * up * i.den
  if i.closed then i.low * down ≤ x ∧ x ≤ i.high * down
  else i.low * down < x ∧ x < i.high * down

/-- The decimal with `n` digits that lies in the interval and is nearest to the
number, if there is one. -/
def nearest? (i : Interval) (n : Nat) : Option Decimal :=
  let e : Int := i.magnitude - n
  let up := Nat.pow 10 e.toNat
  let down := Nat.pow 10 (-e).toNat
  let floor := i.value * down / (up * i.den)
  let candidates := [floor, floor + 1].filter fun d => i.holds d up down
  match candidates with
  | [] => none
  | [d] => some ⟨d, e⟩
  | d :: d' :: _ =>
    let x := i.value * down
    let fromFloor := x - d * up * i.den
    let toCeiling := d' * up * i.den - x
    some ⟨if fromFloor ≤ toCeiling then d else d', e⟩

end Interval

/-- The shortest decimal that rounds to `m * 2 ^ q`, where `m` is not zero. -/
def shortest (m : Nat) (q : Int) : Decimal :=
  let i := interval m q
  match (List.range 17).findSome? fun n => i.nearest? (n + 1) with
  | some d => d.dropZeros 17
  | none => ⟨m, q⟩

end Double

end Folio
