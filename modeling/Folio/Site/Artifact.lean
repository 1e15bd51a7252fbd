import Folio.Disk.Writer
import Folio.Site.Basic

/-!
# Artifacts

An `Artifact` is what one entry of the manifest gives. `Site.render` makes it
and changes nothing; `Site.renderEntry` also writes it, unless the file on the
disk holds just that.
-/

namespace Folio

/-- What an entry gives. -/
structure Artifact where
  entry : Entry
  output : Path
  contents : ByteArray
  /-- What the output held before, if it could be read. -/
  previous : Option ByteArray
  /-- The documents that were read, the input first. -/
  chain : List Path
  warnings : List Warning

/-- Whether the output held something else before. -/
def Artifact.isChanged (a : Artifact) : Bool :=
  a.previous ≠ some a.contents

/-- Whether artifacts are written. The tag tells temporary files apart. -/
inductive BuildMode where
  | write (tag : Text)
  | dryRun
deriving DecidableEq

namespace Site

/-- Makes the artifact of an entry. -/
def render (s : Site) (d : Disk) (e : Entry) : Except SiteError Artifact := do
  let input := s.inputPath e
  let output := s.outputPath e
  let previous := (d.read output).toOption
  match e.mode with
  | .template =>
    match d.source.build s.rules input s.globals with
    | .ok r => return ⟨e, output, r.text.bytes, previous, r.chain, r.warnings⟩
    | .error reason => .error (.chain reason)
  | .copy =>
    match d.read input with
    | .ok contents => return ⟨e, output, contents, previous, [input], []⟩
    | .error reason => .error (.chain (.unreadable input (.system reason)))

/-- Writes a file as an output. -/
def writeOutput (d : Disk) (path : Path) (tag : Text) (contents : ByteArray) :
    Disk × Except SiteError Unit :=
  let (d, result) := d.replaceFile path tag contents
  (d, result.mapError (.unwritable path))

/-- Makes the artifact of an entry and writes it where the mode says so. -/
def renderEntry (s : Site) (d : Disk) (mode : BuildMode) (e : Entry) :
    Disk × Except SiteError Artifact :=
  match s.render d e, mode with
  | .error reason, _ => (d, .error reason)
  | .ok a, .dryRun => (d, .ok a)
  | .ok a, .write tag =>
    if a.isChanged then
      let (d, written) := writeOutput d a.output tag a.contents
      (d, written.map fun _ => a)
    else (d, .ok a)

end Site

end Folio
