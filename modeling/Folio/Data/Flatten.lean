import Folio.Data.Value

/-!
# Flat names

`flatten` binds every scalar inside a value under the name that its path spells:
keys and positions from the outside in, joined by dots. A value that is itself a
scalar has no path and binds nothing. Of two scalars with one name the later one,
in depth-first order, stays.
-/

namespace Folio.Value

/-- The name of a child of the value that is named `parent`. -/
def childName (parent : Option Text) (key : Text) : Text :=
  match parent with
  | none => key
  | some name => name ++ '.' :: key

/-- The text that a scalar binds. -/
def scalarText : Value → Text
  | .null => []
  | .text t => t
  | v => v.write

mutual

/-- The names and texts of the scalars inside a value, depth first. -/
def leaves (name : Option Text) : Value → List (Text × Text)
  | .list items => leavesOfItems name 0 items
  | .object fields => leavesOfFields name fields
  | scalar =>
    match name with
    | none => []
    | some n => [(n, scalar.scalarText)]

/-- The scalars inside the items of a list, the first of which is item `i`. -/
def leavesOfItems (name : Option Text) (i : Nat) : List Value → List (Text × Text)
  | [] => []
  | v :: rest =>
    leaves (some (childName name (Text.ofNat i))) v ++ leavesOfItems name (i + 1) rest

/-- The scalars inside the fields of an object. -/
def leavesOfFields (name : Option Text) : List (Text × Value) → List (Text × Text)
  | [] => []
  | (k, v) :: rest => leaves (some (childName name k)) v ++ leavesOfFields name rest

end

/-- The flat names of a value and their texts. -/
def flatten (v : Value) : Dict Text :=
  .ofList (v.leaves none)

end Folio.Value
