import Folio.Diff.Middle
import Folio.Diff.Slide

/-!
# Comparing two lists

`Diff.compare` compares two lists with as few deletions and insertions as
possible. It splits them at the middle of a cheapest path until nothing is left
to split, slides the runs together, and puts deletions before insertions wherever
both stand between kept items.
-/

namespace Folio.Diff

variable {α : Type} [DecidableEq α]

/-- The runs of two lists. They are split at a point only if both sides of it are
smaller than the whole. -/
def runs (old new : List α) : List (DiffRun α) :=
  let start := sharedStart old new
  let stop := sharedEnd (old.drop start) (new.drop start)
  let deleted := dropLast stop (old.drop start)
  let inserted := dropLast stop (new.drop start)
  let between :=
    match middle? deleted inserted with
    | some (x, y) =>
      if _smaller : (deleted.take x).length + (inserted.take y).length < old.length + new.length ∧
          (deleted.drop x).length + (inserted.drop y).length < old.length + new.length then
        runs (deleted.take x) (inserted.take y) ++ runs (deleted.drop x) (inserted.drop y)
      else runOf .delete deleted ++ runOf .insert inserted
    | none => runOf .delete deleted ++ runOf .insert inserted
  runOf .keep (old.take start) ++ between ++ runOf .keep (takeLast stop old)
termination_by old.length + new.length
decreasing_by
  · exact _smaller.1
  · exact _smaller.2

/-- The items of runs, each with what becomes of it. Deletions and insertions that
are waiting for the next kept item come in this order. -/
def settle (deleted inserted : List α) : List (DiffRun α) → List (DiffKind × α)
  | [] => deleted.map (.delete, ·) ++ inserted.map (.insert, ·)
  | ⟨.keep, items⟩ :: rest =>
    deleted.map (.delete, ·) ++ inserted.map (.insert, ·) ++ items.map (.keep, ·) ++
      settle [] [] rest
  | ⟨.delete, items⟩ :: rest => settle (deleted ++ items) inserted rest
  | ⟨.insert, items⟩ :: rest => settle deleted (inserted ++ items) rest

/-- Compares two lists. -/
def compare (old new : List α) : List (DiffKind × α) :=
  settle [] [] (slide (runs old new))

end Folio.Diff
