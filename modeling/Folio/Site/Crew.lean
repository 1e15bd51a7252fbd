import Folio.Site.Report

/-!
# Crews of workers

A `Crew` is a build whose entries are rendered and written at the same time. Entries are
handed out in the order of the manifest, each to a worker that holds a permit as long as
it is in flight. Once all are handed out the workers are met as they end, in any order;
one that died has no result, and its entry stays pending. A writer may also fail half way,
and then its temporary file stays. The results are put in order and reported when all workers
were met.

`Crew.Step` says what may happen next, and `Crew.Run` which events may follow one another.
What a worker reads is not modelled : others may write at the same time, so it may answer
anything that an entry can give (`Site.Answers`).
-/

namespace Folio

/-- Whether artifacts are written. -/
def BuildMode.writes : BuildMode → Bool
  | .write _ => true
  | .dryRun => false

/-- Whether an entry may have a result : an artifact of its own, or an error that is
not the loss of a worker. -/
def Site.Answers (s : Site) (task : Nat) : Except SiteError Artifact → Prop
  | .ok a => s.manifest.entries[task]? = some a.entry ∧ a.output = s.outputPath a.entry
  | .error reason => reason ≠ .worker

/-- What a worker in flight is at. -/
inductive Job where
  | rendering
  | writing (a : Artifact) (w : Writer)

/-- A build in progress. Tasks are the indices of entries. -/
structure Crew where
  disk : Disk
  /-- How many permits are free. -/
  permits : Nat
  /-- Whether a permit was taken for the next entry. -/
  holding : Bool
  /-- How many entries were handed out. -/
  started : Nat
  /-- The tasks of the workers in flight. -/
  busy : List (Nat × Job)
  /-- What the workers gave that have ended and were not met yet. -/
  ended : List (Nat × Report.Outcome)
  /-- The tasks that were handed out and have no result. -/
  pending : List Nat
  /-- The results of the workers that were met, in the order of meeting. -/
  results : List (Nat × Except SiteError Artifact)
  report : Option Report

namespace Crew

/-- A build that has not begun, with some permits. -/
def start (permits : Nat) (d : Disk) : Crew :=
  ⟨d, permits, false, 0, [], [], [], [], none⟩

/-- What can happen. -/
inductive Event where
  /-- A permit is taken for the next entry. -/
  | acquire
  /-- The next entry is handed to a worker. -/
  | spawn
  /-- A worker renders its entry; the tag is for its temporary file. -/
  | render (task : Nat) (tag : Text) (result : Except SiteError Artifact)
  /-- A worker does one step to write its output. -/
  | write (task : Nat)
  /-- The temporary file of a worker is written in part, and no more of it can be. -/
  | spoil (task : Nat)
  /-- A worker dies. -/
  | lose (task : Nat)
  /-- A worker that has ended is met. -/
  | join (task : Nat)
  /-- The results are reported, and the output directory is pruned. -/
  | report

/-- The worker of a task ends and gives its permit back; `busy` are the others. -/
def leave (c : Crew) (busy : List (Nat × Job)) (task : Nat) (outcome : Report.Outcome) : Crew :=
  { c with busy := busy, ended := (task, outcome) :: c.ended, permits := c.permits + 1 }

/-- The results of all tasks in their order; a task without one has failed. -/
def collected (c : Crew) : List (Nat × Except SiteError Artifact) :=
  (c.results ++ c.pending.map fun task => (task, Except.error SiteError.worker)).mergeSort
    fun x y => x.1 ≤ y.1

/-- The failure of a task, if it has no artifact. -/
def failure? (m : Manifest) (x : Nat × Except SiteError Artifact) : Option EntryFailure :=
  match x.2 with
  | .ok _ => none
  | .error reason => m.entries[x.1]?.map fun e => ⟨e, reason⟩

/-- The report on some results of a manifest. -/
def assemble (m : Manifest) (collected : List (Nat × Except SiteError Artifact))
    (pruned : List Path) : Report where
  artifacts := collected.filterMap fun x => x.2.toOption
  failures := collected.filterMap (failure? m)
  skipped := m.skipped
  pruned := pruned

/-- The result of a worker whose writer is done. -/
def written (a : Artifact) (result : Except SystemError Unit) : Except SiteError Artifact :=
  (result.mapError (.unwritable a.output)).map fun _ => a

/-- What may happen next. -/
inductive Step (s : Site) (mode : BuildMode) : Crew → Event → Crew → Prop
  | acquire {c : Crew} (left : c.started < s.manifest.entries.length)
      (waiting : c.holding = false) (free : 0 < c.permits) :
      Step s mode c .acquire { c with permits := c.permits - 1, holding := true }
  | spawn {c : Crew} (holding : c.holding = true) :
      Step s mode c .spawn { c with
        holding := false
        started := c.started + 1
        pending := c.pending ++ [c.started]
        busy := (c.started, .rendering) :: c.busy }
  /-- What is not to be written is the result of its worker. -/
  | settle {c : Crew} {before after : List (Nat × Job)} {task : Nat} {tag : Text}
      {result : Except SiteError Artifact} (busy : c.busy = before ++ (task, .rendering) :: after)
      (answer : s.Answers task result)
      (unwritten : ∀ a, result = .ok a → ¬(mode.writes ∧ a.isChanged)) :
      Step s mode c (.render task tag result) (c.leave (before ++ after) task (some result))
  | begin {c : Crew} {before after : List (Nat × Job)} {task : Nat} {tag : Text} {a : Artifact}
      (busy : c.busy = before ++ (task, .rendering) :: after) (answer : s.Answers task (.ok a))
      (writes : mode.writes) (changed : a.isChanged) :
      Step s mode c (.render task tag (.ok a)) { c with
        busy := before ++ (task, .writing a (.start a.output tag a.contents)) :: after }
  | proceed {c : Crew} {before after : List (Nat × Job)} {task : Nat} {a : Artifact}
      {w w' : Writer} {d : Disk} (busy : c.busy = before ++ (task, .writing a w) :: after)
      (step : w.step c.disk = (d, w')) (undone : w'.result? = none) :
      Step s mode c (.write task) { c with
        disk := d
        busy := before ++ (task, .writing a w') :: after }
  | conclude {c : Crew} {before after : List (Nat × Job)} {task : Nat} {a : Artifact}
      {w w' : Writer} {d : Disk} {result : Except SystemError Unit}
      (busy : c.busy = before ++ (task, .writing a w) :: after)
      (step : w.step c.disk = (d, w')) (done : w'.result? = some result) :
      Step s mode c (.write task)
        ({ c with disk := d }.leave (before ++ after) task (some (written a result)))
  /-- What was written of the temporary file stays. -/
  | spoil {c : Crew} {before after : List (Nat × Job)} {task : Nat} {a : Artifact}
      {w : Writer} {d : Disk} {kept rest : ByteArray}
      (busy : c.busy = before ++ (task, .writing a w) :: after)
      (part : w.contents = kept ++ rest) (step : w.spoil c.disk kept = some d) :
      Step s mode c (.spoil task)
        ({ c with disk := d }.leave (before ++ after) task (some (written a (.error .noSpace))))
  | lose {c : Crew} {before after : List (Nat × Job)} {task : Nat} {job : Job}
      (busy : c.busy = before ++ (task, job) :: after) :
      Step s mode c (.lose task) (c.leave (before ++ after) task none)
  | collect {c : Crew} {before after : List (Nat × Report.Outcome)} {task : Nat}
      {result : Except SiteError Artifact} (all : c.started = s.manifest.entries.length)
      (ended : c.ended = before ++ (task, some result) :: after) :
      Step s mode c (.join task) { c with
        ended := before ++ after
        pending := c.pending.erase task
        results := c.results ++ [(task, result)] }
  /-- Nothing is learnt from a worker that died. -/
  | miss {c : Crew} {before after : List (Nat × Report.Outcome)} {task : Nat}
      (all : c.started = s.manifest.entries.length)
      (ended : c.ended = before ++ (task, none) :: after) :
      Step s mode c (.join task) { c with ended := before ++ after }
  | report {c : Crew} (all : c.started = s.manifest.entries.length) (busy : c.busy = [])
      (ended : c.ended = []) (first : c.report = none) :
      Step s mode c .report { c with
        disk := (s.pruneAfter mode c.disk).1
        report := some (assemble s.manifest c.collected (s.pruneAfter mode c.disk).2) }

/-- The events that may follow one another, where each of them has to be allowed in the
state in which it happens. -/
inductive Run (s : Site) (mode : BuildMode) (allowed : Crew → Event → Prop) :
    Crew → List Event → Crew → Prop
  | nil (c : Crew) : Run s mode allowed c [] c
  | snoc {c c' c'' : Crew} {events : List Event} {event : Event}
      (run : Run s mode allowed c events c') (ok : allowed c' event)
      (step : Step s mode c' event c'') : Run s mode allowed c (events ++ [event]) c''

end Crew

end Folio
