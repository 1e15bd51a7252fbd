import Folio.Path
import Folio.Watch.Glob

/-!
# Changes that call for a new build

A `WatchFilter` drops the events that touch only ignored paths: those below the
output directory and those that match an ignore pattern. Patterns are matched
against the path from the description directory.
-/

namespace Folio

/-- A set of ignore patterns. -/
abbrev IgnoreSet := List Glob

/-- An ignore pattern that cannot be read. -/
structure IgnoreError where
  pattern : Text
  fault : GlobFault

namespace IgnoreError

/-- The text of the error. -/
def message (e : IgnoreError) : String :=
  let pattern := String.ofList e.pattern
  "invalid watch ignore pattern \x60" ++ pattern ++ "\x60: error parsing glob '" ++ pattern ++
    "': " ++ e.fault.message

/-- The name of the error. -/
def code (_ : IgnoreError) : String :=
  "stencil::invalid_glob"

end IgnoreError

namespace IgnoreSet

/-- Reads patterns; the first that cannot be read is reported. -/
def ofPatterns (patterns : List Text) : Except IgnoreError IgnoreSet :=
  patterns.mapM fun p =>
    match Glob.parse p with
    | .ok g => .ok g
    | .error fault => .error ⟨p, fault⟩

/-- Whether a path matches a pattern. -/
def accepts (set : IgnoreSet) (path : Path) : Bool :=
  set.any fun g => g.accepts path.text

end IgnoreSet

/-- What happened to a path. -/
inductive ChangeKind where
  | created
  | modified
  | removed
  | other
deriving DecidableEq

/-- A change of files, with the paths that it touches. -/
structure Change where
  kind : ChangeKind
  paths : List Path

/-- Tells which changes call for a new build. -/
structure WatchFilter where
  /-- The directory that the patterns are relative to. -/
  descriptionDir : Path
  outputDir : Path
  ignore : IgnoreSet

namespace WatchFilter

/-- Whether changes of a path count for nothing. -/
def ignores (f : WatchFilter) (path : Path) : Bool :=
  path.startsWith f.outputDir ||
    f.ignore.accepts ((path.relativeTo? f.descriptionDir).getD path)

/-- Whether a change calls for a new build. -/
def isRelevant (f : WatchFilter) (change : Change) : Bool :=
  change.kind ≠ .other && change.paths.any fun p => !f.ignores p

end WatchFilter

end Folio
