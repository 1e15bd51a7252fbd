/-!
# Double precision numbers

A finite `Double` is a natural number times a power of two. All arithmetic is
exact arithmetic of natural numbers followed by one rounding, `Double.ofRatio`,
to the nearest number with 53 significant bits; a tie goes to the even neighbour.
-/

namespace Folio

/-- A number of the binary64 format. -/
inductive Double where
  /-- Plus or minus `mantissa * 2 ^ exponent`. -/
  | finite (negative : Bool) (mantissa : Nat) (exponent : Int)
  | infinite (negative : Bool)
  | nan
deriving DecidableEq, Inhabited

namespace Double

/-- Zero, which has a sign. -/
def zero (negative : Bool) : Double :=
  .finite negative 0 (-1074)

/-- A quotient rounded to a natural number, a tie to the even one. -/
def roundQuotient (num den : Nat) : Nat :=
  let quotient := num / den
  let rest := 2 * (num % den)
  if rest < den then quotient
  else if den < rest then quotient + 1
  else if quotient % 2 = 0 then quotient
  else quotient + 1

/-- The nearest number to `num / den`, where `den` is not zero. -/
def ofRatio (negative : Bool) (num den : Nat) : Double :=
  if num = 0 then zero negative
  else
    let guess : Int := (num.log2 : Int) - den.log2
    let below : Bool :=
      if guess ≥ 0 then num < den * Nat.pow 2 guess.toNat
      else num * Nat.pow 2 (-guess).toNat < den
    let scale : Int := max ((if below then guess - 1 else guess) - 52) (-1074)
    let rounded :=
      if scale ≥ 0 then roundQuotient num (den * Nat.pow 2 scale.toNat)
      else roundQuotient (num * Nat.pow 2 (-scale).toNat) den
    let (mantissa, exponent) :=
      if rounded = Nat.pow 2 53 then (Nat.pow 2 52, scale + 1) else (rounded, scale)
    if exponent > 971 then .infinite negative else .finite negative mantissa exponent

/-- The nearest number to a natural number. -/
def ofNat (n : Nat) : Double :=
  ofRatio false n 1

/-- The nearest number to `digits * 10 ^ exponent`. Beyond four hundred places
on either side of the point every number is infinite or zero. -/
def ofDecimal (negative : Bool) (digits : Nat) (exponent : Int) : Double :=
  if digits = 0 then zero negative
  else if exponent > 400 then .infinite negative
  else if exponent + (digits.log2 : Int) < -1500 then zero negative
  else if exponent ≥ 0 then ofRatio negative (digits * Nat.pow 10 exponent.toNat) 1
  else ofRatio negative digits (Nat.pow 10 (-exponent).toNat)

/-- Changes the sign. -/
def neg : Double → Double
  | .finite negative m q => .finite (!negative) m q
  | .infinite negative => .infinite (!negative)
  | .nan => .nan

/-- Whether a number is neither infinite nor NaN. -/
def isFinite : Double → Bool
  | .finite _ _ _ => true
  | _ => false

/-- The product of two finite numbers. -/
def mul : Double → Double → Double
  | .finite s m q, .finite s' m' q' =>
    let e := q + q'
    if e ≥ 0 then ofRatio (s != s') (m * m' * Nat.pow 2 e.toNat) 1
    else ofRatio (s != s') (m * m') (Nat.pow 2 (-e).toNat)
  | _, _ => .nan

/-- The quotient of two finite numbers, the second of which is not zero. -/
def div : Double → Double → Double
  | .finite s m q, .finite s' m' q' =>
    let e := q - q'
    if e ≥ 0 then ofRatio (s != s') (m * Nat.pow 2 e.toNat) m'
    else ofRatio (s != s') m (m' * Nat.pow 2 (-e).toNat)
  | _, _ => .nan

end Double

end Folio
