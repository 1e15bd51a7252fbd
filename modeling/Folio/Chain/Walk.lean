import Folio.Chain.Load
import Folio.Template.Resolve

/-!
# Walks along a chain

`chainOf` lists the documents from an entry to the one without a parent.
`build` also resolves them: the sections of each document are resolved in the
scope that its descendants have built, and are then added to the scope that its
parent sees. The anonymous section of the last document is the page.
-/

namespace Folio

/-- A page with the documents it was made of. -/
structure Rendered where
  text : Text
  chain : List Path
  warnings : List Warning

namespace Source

/-- The chain of a walk that goes on at `p`. -/
def chainFrom (s : Source) (rules : Rules) (p : Path) (trail : Trail) :
    Except ChainError (List Path) :=
  match _h : s.load p trail with
  | .error e => .error e
  | .ok (doc, trail') =>
    match segment rules doc with
    | .error e => .error (.segment e)
    | .ok segmented =>
      match segmented.parent with
      | none => .ok trail'.chain
      | some parent => chainFrom s rules parent trail'
termination_by s.unseen trail
decreasing_by exact unseen_load_lt _h

/-- The documents from `entry` up to the one without a parent. -/
def chainOf (s : Source) (rules : Rules) (entry : Path) : Except ChainError (List Path) :=
  s.chainFrom rules entry .empty

/-- The page of a walk that goes on at `p` with the scope and the warnings of
the documents before. -/
def buildFrom (s : Source) (rules : Rules) (p : Path) (trail : Trail) (scope : Scope)
    (warnings : List Warning) : Except ChainError Rendered :=
  match _h : s.load p trail with
  | .error e => .error e
  | .ok (doc, trail') =>
    match segment rules doc with
    | .error e => .error (.segment e)
    | .ok segmented =>
      let resolved := resolve scope doc.path segmented.sections
      let warnings' := warnings ++ resolved.warnings
      match segmented.parent with
      | none => .ok ⟨(resolved.sections.get? anonymous).getD [], trail'.chain, warnings'⟩
      | some parent =>
        buildFrom s rules parent trail' (scope.extend resolved.sections.toList) warnings'
termination_by s.unseen trail
decreasing_by exact unseen_load_lt _h

/-- Resolves `entry` and every document it inherits from. -/
def build (s : Source) (rules : Rules) (entry : Path) (globals : Scope) :
    Except ChainError Rendered :=
  s.buildFrom rules entry .empty globals []

end Source

end Folio
