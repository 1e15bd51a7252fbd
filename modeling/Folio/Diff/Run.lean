/-!
# Runs of a comparison

Two lists are compared by a list of runs: items that both have, items that only
the old list has, and items that only the new list has.
-/

namespace Folio

/-- What becomes of items on the way from the old list to the new one. -/
inductive DiffKind where
  | keep
  | delete
  | insert
deriving DecidableEq

/-- Neighbouring items that the same becomes of. -/
structure DiffRun (α : Type) where
  kind : DiffKind
  items : List α
deriving DecidableEq

namespace Diff

variable {α : Type}

/-- A run of items, unless there are none. -/
def runOf (kind : DiffKind) (items : List α) : List (DiffRun α) :=
  if items.isEmpty then [] else [⟨kind, items⟩]

/-- The number of items that two lists both begin with. -/
def sharedStart [DecidableEq α] : List α → List α → Nat
  | a :: as, b :: bs => if a = b then sharedStart as bs + 1 else 0
  | _, _ => 0

/-- The number of items that two lists both end with. -/
def sharedEnd [DecidableEq α] (as bs : List α) : Nat :=
  sharedStart as.reverse bs.reverse

/-- The items in front of the last `n`. -/
def dropLast (n : Nat) (items : List α) : List α :=
  items.take (items.length - n)

/-- The last `n` items. -/
def takeLast (n : Nat) (items : List α) : List α :=
  items.drop (items.length - n)

end Diff

end Folio
