import Folio.Diff.Run

/-!
# The middle of a shortest comparison

A comparison of two lists is a path through the grid of their positions: it
deletes an item of the old list, inserts one of the new, or keeps an item that
both have, which costs nothing. `middle?` finds a point on a cheapest path by
searching from both ends until the searches meet.

A search is known by its frontier: for each number of deletions that its edits
may have, how far into the old list a path gets. The position in the new list
follows from it (`newPosition`).
-/

namespace Folio.Diff

variable {α : Type} [DecidableEq α]

/-- Where the paths with one more edit start, behind one whose neighbour with a
deletion less gets as far as `x`. -/
def startsAfter (x : Nat) : List Nat → List Nat
  | [] => [x + 1]
  | y :: rest => (if x < y then y else x + 1) :: startsAfter y rest

/-- Where the paths with one more edit start, before they keep any items. -/
def starts : List Nat → List Nat
  | [] => [0]
  | x :: rest => x :: startsAfter x rest

/-- The position in the new list of a path that stands at `x` in the old one. -/
def newPosition (edits deletions x : Nat) : Nat :=
  x + edits - 2 * deletions

/-- How far paths get that keep items as long as they can. -/
def reach (old new : List α) (edits : Nat) (xs : List Nat) : List Nat :=
  xs.mapIdx fun deletions x =>
    x + sharedStart (old.drop x) (new.drop (newPosition edits deletions x))

/-- Whether paths from both ends meet, when those of a comparison have `all`
deletions together. The most deletions are tried first, and answered. -/
def meeting? (size all : Nat) (own other : List Nat) : Option Nat :=
  (List.range own.length).reverse.find? fun deletions =>
    deletions ≤ all &&
      match own[deletions]?, other[all - deletions]? with
      | some x, some y => size ≤ x + y
      | _, _ => false

/-- The number of deletions that a comparison with a number of edits has. -/
def deletionsOf? (old new : List α) (edits : Nat) : Option Nat :=
  let doubled := old.length + edits - new.length
  if old.length + edits < new.length ∨ doubled % 2 = 1 then none else some (doubled / 2)

/-- Searches on from two frontiers with equally many edits, for at most a number of
rounds. -/
def searchMiddle (old new : List α) (front back : List Nat) : Nat → Option (Nat × Nat)
  | 0 => none
  | rounds + 1 =>
    let edits := front.length
    let begun := starts front
    let front := reach old new edits begun
    let met := (deletionsOf? old new (2 * edits - 1)).bind fun all =>
      meeting? old.length all front back
    match met with
    | some deletions =>
      let x := begun.getD deletions 0
      some (x, newPosition edits deletions x)
    | none =>
      let back := reach old.reverse new.reverse edits (starts back)
      let met := (deletionsOf? old new (2 * edits)).bind fun all =>
        meeting? old.length all back front
      match met with
      | some deletions =>
        let x := back.getD deletions 0
        some (old.length - x, new.length - newPosition edits deletions x)
      | none => searchMiddle old new front back rounds

/-- A point on a cheapest path: its positions in the old and in the new list. An
empty list leaves no choice of a path, hence needs no point. -/
def middle? (old new : List α) : Option (Nat × Nat) :=
  if old.isEmpty || new.isEmpty then none
  else searchMiddle old new [] [] ((old.length + new.length + 1) / 2 + 1)

end Folio.Diff
