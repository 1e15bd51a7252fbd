import Folio.Disk.Change

/-!
# Writers that replace a file

A `Writer` puts contents in place of a file in such a way that the file is at no
moment half written: it writes a temporary file beside the target and gives that
file the target's name. `Writer.step` does one step, so that the steps of several
writers may alternate; `Disk.replaceFile` runs a writer from its start to its end.
-/

namespace Folio

/-- What a writer does next. -/
inductive WriterPhase where
  | makeFolders
  | writeTemporary
  | rename
  /-- Removes the temporary file, because the target cannot get its contents. -/
  | discard (reason : SystemError)
  | done (result : Except SystemError Unit)

/-- A writer that replaces a file. -/
structure Writer where
  target : Path
  temporary : Path
  contents : ByteArray
  phase : WriterPhase

namespace Writer

/-- The name of a temporary file that stands beside the target. Its tag is what
tells the temporary files of writers apart. -/
def temporaryFor (target : Path) (tag : Text) : Path :=
  let name := target.fileName?.getD "output".toList
  target.withFileName ('.' :: name ++ ".tmp-".toList ++ tag)

/-- A writer that has done nothing yet. -/
def start (target : Path) (tag : Text) (contents : ByteArray) : Writer :=
  ⟨target, temporaryFor target tag, contents, .makeFolders⟩

/-- The writer in another phase. -/
def goTo (w : Writer) (phase : WriterPhase) : Writer :=
  { w with phase := phase }

/-- Does one step. A writer that is done stays as it is. -/
def step (d : Disk) (w : Writer) : Disk × Writer :=
  match w.phase with
  | .makeFolders =>
    match w.target.parent? with
    | none => (d, w.goTo .writeTemporary)
    | some folder =>
      match d.makeDirectories folder with
      | (d, .ok ()) => (d, w.goTo .writeTemporary)
      | (d, .error e) => (d, w.goTo (.done (.error e)))
  | .writeTemporary =>
    match d.writeFile w.temporary w.contents with
    | .ok d => (d, w.goTo .rename)
    | .error e => (d, w.goTo (.done (.error e)))
  | .rename =>
    match d.rename w.temporary w.target with
    | .ok d => (d, w.goTo (.done (.ok ())))
    | .error e => (d, w.goTo (.discard e))
  | .discard e =>
    match d.removeFile w.temporary with
    | .ok d => (d, w.goTo (.done (.error e)))
    | .error _ => (d, w.goTo (.done (.error e)))
  | .done _ => (d, w)

/-- Writes only some bytes to the temporary file, if it is to be written now. -/
def spoil (d : Disk) (w : Writer) (kept : ByteArray) : Option Disk :=
  match w.phase with
  | .writeTemporary => (d.writeFile w.temporary kept).toOption
  | _ => none

/-- How many steps are left at most. -/
def stepsLeft (w : Writer) : Nat :=
  match w.phase with
  | .makeFolders => 4
  | .writeTemporary => 3
  | .rename => 2
  | .discard _ => 1
  | .done _ => 0

/-- Does a number of steps. -/
def run (d : Disk) (w : Writer) : Nat → Disk × Writer
  | 0 => (d, w)
  | n + 1 =>
    let (d, w) := w.step d
    w.run d n

/-- The result of a writer, once it is done. -/
def result? (w : Writer) : Option (Except SystemError Unit) :=
  match w.phase with
  | .done result => some result
  | _ => none

/-- Does all steps that are left. -/
def finish (d : Disk) (w : Writer) : Disk × Except SystemError Unit :=
  let (d, w) := w.run d w.stepsLeft
  (d, w.result?.getD (.ok ()))

/-- A step of a writer uses up at least one of those that are left. -/
theorem stepsLeft_step_le (d : Disk) (w : Writer) :
    (w.step d).2.stepsLeft ≤ w.stepsLeft - 1 := by
  obtain ⟨target, temporary, contents, phase⟩ := w
  cases phase with
  | makeFolders =>
    simp only [step]
    split
    · simp [goTo, stepsLeft]
    · split <;> simp [goTo, stepsLeft]
  | done result => simp [step, stepsLeft]
  | _ =>
    simp only [step]
    split <;> simp [goTo, stepsLeft]

/-- After the steps that are left a writer is done. -/
theorem isSome_result?_run {n : Nat} {d : Disk} {w : Writer} (h : w.stepsLeft ≤ n) :
    (w.run d n).2.result?.isSome := by
  induction n generalizing d w with
  | zero =>
    obtain ⟨target, temporary, contents, phase⟩ := w
    cases phase <;> simp_all [stepsLeft, run, result?]
  | succ n ih =>
    exact ih (Nat.le_trans (stepsLeft_step_le d w) (by omega))

end Writer

/-- Puts contents in place of a file, or where no file stands yet. -/
def Disk.replaceFile (d : Disk) (target : Path) (tag : Text) (contents : ByteArray) :
    Disk × Except SystemError Unit :=
  (Writer.start target tag contents).finish d

end Folio
