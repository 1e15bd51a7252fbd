import Folio.Diff.Run

/-!
# Sliding runs together

A run of insertions between kept items may stand in several places: if the items
in front of it end as it ends, it can begin that much earlier. `slide` moves runs
up as far as they go, so that they join others of their kind, and down again.
Deletions and insertions pass each other; kept items are passed by insertions
alone.
-/

namespace Folio.Diff

variable {α : Type}

/-- Puts kept items in front of runs. -/
def keepBefore (items : List α) : List (DiffRun α) → List (DiffRun α)
  | ⟨.keep, more⟩ :: rest => ⟨.keep, items ++ more⟩ :: rest
  | rest => ⟨.keep, items⟩ :: rest

/-- Puts kept items behind runs that are listed from the last to the first. -/
def keepBehind (items : List α) : List (DiffRun α) → List (DiffRun α)
  | ⟨.keep, more⟩ :: rest => ⟨.keep, more ++ items⟩ :: rest
  | rest => ⟨.keep, items⟩ :: rest

/-- A run among others, those in front of it listed from the last to the first. -/
structure Focus (α : Type) where
  before : List (DiffRun α)
  run : DiffRun α
  after : List (DiffRun α)

/-- The size of a list of runs: its runs and their items. -/
def weight : List (DiffRun α) → Nat
  | [] => 0
  | r :: rest => r.items.length + 1 + weight rest

variable [DecidableEq α]

theorem sharedStart_le_length (as bs : List α) : sharedStart as bs ≤ as.length := by
  fun_induction sharedStart as bs <;> simp_all

theorem sharedEnd_le_length (as bs : List α) : sharedEnd as bs ≤ as.length := by
  simpa [sharedEnd] using sharedStart_le_length as.reverse bs.reverse

/-- Moves a run up as far as it goes. -/
def slideUp (before : List (DiffRun α)) (run : DiffRun α) (after : List (DiffRun α)) : Focus α :=
  match before with
  | [] => ⟨[], run, after⟩
  | last :: rest =>
    if last.kind = run.kind then slideUp rest ⟨run.kind, last.items ++ run.items⟩ after
    else if last.kind ≠ .keep then slideUp rest run (last :: after)
    else if last.items.isEmpty then slideUp rest run after
    else if run.kind = .insert then
      let n := sharedEnd last.items run.items
      if _moves : 0 < n then
        slideUp (⟨.keep, dropLast n last.items⟩ :: rest)
          ⟨.insert, takeLast n last.items ++ dropLast n run.items⟩
          (keepBefore (takeLast n last.items) after)
      else ⟨before, run, after⟩
    else ⟨before, run, after⟩
termination_by weight before
decreasing_by
  · simp [weight]
  · simp [weight]
  · simp [weight]
  · have := sharedEnd_le_length last.items run.items
    simp only [weight, dropLast, List.length_take]
    omega

/-- Moves a run down as far as it goes. -/
def slideDown (before : List (DiffRun α)) (run : DiffRun α) (after : List (DiffRun α)) :
    Focus α :=
  match after with
  | [] => ⟨before, run, []⟩
  | next :: rest =>
    if next.kind = run.kind then slideDown before ⟨run.kind, run.items ++ next.items⟩ rest
    else if next.kind ≠ .keep then slideDown (next :: before) run rest
    else if next.items.isEmpty then slideDown before run rest
    else if run.kind = .insert then
      let n := sharedStart next.items run.items
      if _moves : 0 < n then
        slideDown (keepBehind (next.items.take n) before)
          ⟨.insert, run.items.drop n ++ next.items.take n⟩
          (⟨.keep, next.items.drop n⟩ :: rest)
      else ⟨before, run, after⟩
    else ⟨before, run, after⟩
termination_by weight after
decreasing_by
  · simp [weight]
  · simp [weight]
  · simp [weight]
  · have := sharedStart_le_length next.items run.items
    simp only [weight, List.length_drop]
    omega

/-- Slides the runs of one kind among those that are left, one after another. The
last argument bounds how many runs are passed. -/
def slideKind (kind : DiffKind) (before after : List (DiffRun α)) : Nat → List (DiffRun α)
  | 0 => before.reverse ++ after
  | steps + 1 =>
    match after with
    | [] => before.reverse
    | run :: rest =>
      if run.kind = kind then
        let up := slideUp before run rest
        let down := slideDown up.before up.run up.after
        slideKind kind (down.run :: down.before) down.after steps
      else slideKind kind (run :: before) rest steps

/-- Slides deletions, then insertions. No run is passed twice, so their weight
bounds the steps. -/
def slide (runs : List (DiffRun α)) : List (DiffRun α) :=
  let runs := slideKind .delete [] runs (weight runs)
  slideKind .insert [] runs (weight runs)

end Folio.Diff
