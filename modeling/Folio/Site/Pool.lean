/-!
# Pools of workers

A `Pool` hands out tasks, which are numbered from zero, to workers and collects
their answers. At most `bound` workers are busy at a time. Workers may answer in
any order, and a worker may be lost without an answer. `Pool.results` has one
result for each task that was handed out, in the order of the tasks.
-/

namespace Folio

/-- Workers at work on numbered tasks. -/
structure Pool (α : Type) where
  /-- How many workers may be busy at a time. -/
  bound : Nat
  /-- How many tasks there are. -/
  total : Nat
  /-- How many tasks were handed out. -/
  started : Nat := 0
  /-- The tasks of the busy workers. -/
  busy : List Nat := []
  /-- The answers so far, the latest first. -/
  answers : List (Nat × α) := []

namespace Pool

variable {α : Type}

/-- Hands out the next task, when there is one and a worker is free. -/
def start (p : Pool α) : Pool α :=
  if p.started < p.total ∧ p.busy.length < p.bound then
    { p with started := p.started + 1, busy := p.started :: p.busy }
  else p

/-- Takes the answer to a task from the worker that is busy with it. -/
def answer (p : Pool α) (task : Nat) (a : α) : Pool α :=
  if task ∈ p.busy then
    { p with busy := p.busy.erase task, answers := (task, a) :: p.answers }
  else p

/-- The results of the tasks in their order; that of a lost worker is missing. -/
def results (p : Pool α) : List (Option α) :=
  (List.range p.started).map fun task => p.answers.lookup task

end Pool

end Folio
