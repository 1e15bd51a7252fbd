import Folio.Command.Transcript
import Folio.Disk.Basic
import Folio.Watch.Filter

/-!
# How commands end

A command ends well, or with a failure (entries that could not be built, outputs
that are out of date, warnings where none are allowed), or it cannot start at all.
A build that watches goes on instead, until it is stopped.
-/

namespace Folio

/-- How a command ends. -/
inductive Ending where
  | success
  | failure
  /-- The command could not start. -/
  | fatal
  /-- A build is to follow whenever the filter lets a change through. -/
  | watching (filter : WatchFilter)

/-- The exit code of an ending. There is none as long as the command goes on. -/
def Ending.code? : Ending → Option Nat
  | .success => some 0
  | .failure => some 1
  | .fatal => some 2
  | .watching _ => none

/-- What running a command comes to: the disk that it leaves, what it has said, and
how it ends. -/
structure CommandRun where
  disk : Disk
  transcript : Transcript
  ending : Ending

/-- What a command depends on besides the disk and its words. -/
structure Surroundings where
  /-- Whether the terminal knows colors and nothing forbids them. -/
  colors : Bool
  /-- Tells the temporary files of this run from those of others. -/
  tag : Text

end Folio
