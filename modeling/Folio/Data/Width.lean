/-!
# Machine words

The ranges of the integers that fit into words of a number of bits, one of which
may be the sign.
-/

namespace Folio.Width

/-- The greatest integer without a sign. -/
def unsignedMax (bits : Nat) : Nat :=
  Nat.pow 2 bits - 1

/-- The greatest integer with a sign. -/
def signedMax (bits : Nat) : Nat :=
  unsignedMax (bits - 1)

/-- The least integer with a sign. -/
def signedMin (bits : Nat) : Int :=
  -(signedMax bits : Int) - 1

end Folio.Width
