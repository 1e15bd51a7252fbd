import Folio.Command.Transcript
import Folio.Diff.Lines
import Folio.Site.Report
import Folio.Text.Lossy

/-!
# Messages

How the commands word what they have to say about errors, warnings, skipped lines
and outputs that are out of date. Paths below the project are shown from there.
-/

namespace Folio

/-- What decides how messages look: the directory that paths are shown from, and
whether words are set off by colors. -/
structure MessageStyle where
  root : Path
  colors : Bool

/-- A path as it is shown to someone in a directory. -/
def Path.shownFrom (p root : Path) : Text :=
  ((p.relativeTo? root).getD p).text

/-- The block of lines that reports an error. -/
def SiteError.report (e : SiteError) : String :=
  let help := match e.help? with
    | some help => "diagnostic help: " ++ help ++ "\n"
    | none => ""
  e.message ++ "\n    Diagnostic severity: error\n" ++ help ++ "diagnostic code: " ++ e.code ++
    "\n\n"

namespace MessageStyle

open Transcript

/-- A path as it is shown. -/
def shown (s : MessageStyle) (p : Path) : String :=
  String.ofList (p.shownFrom s.root)

/-- A line that begins with a word that is set off. -/
def labelled (s : MessageStyle) (e : Emphasis) (label rest : String) : Transcript :=
  complain (e.apply s.colors label ++ " " ++ rest)

/-- A line for each line of the manifest that was skipped. -/
def skipped (lines : List SkippedLine) : Transcript :=
  lines.flatMap fun l =>
    complain ("skipped manifest line " ++ toString l.line ++ ": " ++ String.ofList l.content)

/-- The order of warnings: by the file as it is shown, then by section. -/
def inOrder (s : MessageStyle) (a b : Warning) : Bool :=
  let file := a.file.shownFrom s.root
  let other := b.file.shownFrom s.root
  if file = other then a.sectionName.isUpTo b.sectionName else file.isUpTo other

/-- A line for each warning. -/
def warnings (s : MessageStyle) (ws : List Warning) : Transcript :=
  (ws.mergeSort s.inOrder).flatMap fun w =>
    s.labelled .yellow "warning:" (w.kind.message ++ " in " ++ s.shown w.file ++ " (section \x60" ++
      String.ofList w.sectionName ++ "\x60): " ++ String.ofList w.statement)

/-- The report on each entry that failed. -/
def failures (s : MessageStyle) (fs : List EntryFailure) : Transcript :=
  fs.flatMap fun f =>
    s.labelled .red "failed:" (s.shown f.entry.input ++ " (manifest line " ++
      toString f.entry.line ++ ")") ++ complainText f.error.report

/-- A line of a comparison. One without an end gets one, and one more behind it. -/
def comparedLine (s : MessageStyle) (kind : DiffKind) (line : Text) : String :=
  let missing := if Diff.hasEnd line then "" else "\n"
  let text := String.ofList line ++ missing
  let shown := match kind with
    | .keep => "   " ++ text
    | .delete => "  " ++ Emphasis.red.apply s.colors ("-" ++ text)
    | .insert => "  " ++ Emphasis.green.apply s.colors ("+" ++ text)
  shown ++ missing

/-- What would change in the text of an output. -/
def comparison (s : MessageStyle) (a : Artifact) : Transcript :=
  let old := (a.previous.map Text.ofBytesLossy).getD []
  let new := Text.ofBytesLossy a.contents
  (Diff.compareLines old new).flatMap fun (kind, line) => complainText (s.comparedLine kind line)

/-- The line on an output that is missing or out of date, and a comparison if one is
asked for. -/
def stale (s : MessageStyle) (diff : Bool) (a : Artifact) : Transcript :=
  let state := if a.previous.isSome then "out of date" else "missing"
  s.labelled .yellow "stale:" (s.shown a.output ++ " is " ++ state) ++
    if diff then s.comparison a else []

/-- An indented line for each of some paths. -/
def paths (s : MessageStyle) (lead : String) (ps : List Path) : Transcript :=
  ps.flatMap fun p => say ("  " ++ lead ++ s.shown p)

end MessageStyle

end Folio
