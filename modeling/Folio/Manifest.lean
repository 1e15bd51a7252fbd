import Folio.Path
import Folio.Text.Blank

/-!
# The manifest

Each line of a manifest maps an input to an output: `input > mode > output`.
Blank lines and lines that begin with `#` say nothing. A line that does not have
exactly three fields, all of them filled, is skipped and remembered.
-/

namespace Folio

/-- How an input becomes an output. -/
inductive EntryMode where
  /-- The input is resolved through its chain. -/
  | template
  /-- The bytes of the input are the output. -/
  | copy
deriving DecidableEq

/-- The word for a mode. -/
def EntryMode.name : EntryMode → String
  | .template => "template"
  | .copy => "copy"

/-- One line of the manifest that maps an input to an output. -/
structure Entry where
  input : Path
  mode : EntryMode
  output : Path
  /-- The number of the line, from one. -/
  line : Nat
deriving DecidableEq

/-- A line that maps nothing, without the blanks around it. -/
structure SkippedLine where
  line : Nat
  content : Text
deriving DecidableEq

/-- The entries and the skipped lines, both in the order of the lines. -/
structure Manifest where
  entries : List Entry
  skipped : List SkippedLine

namespace Manifest

/-- What one line says. -/
inductive Line where
  | silent
  | entry (e : Entry)
  | skipped (s : SkippedLine)

/-- The mode that a mode field names. -/
def modeOf (field : Text) : EntryMode :=
  if field = ['$'] then .template else .copy

/-- Reads the line with the given number. -/
def readLine (number : Nat) (raw : Text) : Line :=
  let line := raw.trim
  if line = [] ∨ line.head? = some '#' then .silent
  else
    match (line.splitOn '>').map Text.trim with
    | [input, mode, output] =>
      if input = [] ∨ mode = [] ∨ output = [] then .skipped ⟨number, line⟩
      else .entry ⟨⟨input⟩, modeOf mode, ⟨output⟩, number⟩
    | _ => .skipped ⟨number, line⟩

/-- Reads lines, the first of which has the given number. -/
def readLines (number : Nat) : List Text → Manifest
  | [] => ⟨[], []⟩
  | raw :: rest =>
    let later := readLines (number + 1) rest
    match readLine number raw with
    | .silent => later
    | .entry e => { later with entries := e :: later.entries }
    | .skipped s => { later with skipped := s :: later.skipped }

/-- Reads the text of a manifest. -/
def ofText (content : Text) : Manifest :=
  readLines 1 (Text.lines content)

end Manifest

end Folio
