import Folio.Data.Value
import Folio.Text.Blank

/-!
# INI files

A line is empty, a comment that begins with `;` or `#`, a section `[name]`, or a
binding `key=value`. Blanks around a key and around a value are dropped, and all
values are texts. Bindings in front of the first section belong to the file
itself. A later binding or section replaces an earlier one of the same name.
-/

namespace Folio.Ini

/-- What one line says. -/
inductive Line where
  | silent
  | sectionStart (name : Text)
  | binding (key value : Text)
deriving DecidableEq

/-- Reads a line; `none` when it says nothing that an INI file can say. -/
def readLine? (line : Text) : Option Line :=
  match line with
  | '[' :: rest =>
    if rest.getLast? = some ']' ∧ ']' ∉ rest.dropLast then some (.sectionStart rest.dropLast)
    else none
  | ';' :: _ => some .silent
  | '#' :: _ => some .silent
  | [] => some .silent
  | _ =>
    match line.dropWhile (· ≠ '=') with
    | [] => none
    | _ :: value => some (.binding (Text.trim (line.takeWhile (· ≠ '='))) (Text.trim value))

/-- The bindings in front of the first section, and the sections with theirs. -/
def group : List Line → List (Text × Text) × List (Text × List (Text × Text))
  | [] => ([], [])
  | line :: rest =>
    let (bindings, sections) := group rest
    match line with
    | .silent => (bindings, sections)
    | .binding key value => ((key, value) :: bindings, sections)
    | .sectionStart name => ([], (name, bindings) :: sections)

/-- Bindings as the fields of an object. -/
def fields (bindings : List (Text × Text)) : List (Text × Value) :=
  bindings.map fun (k, v) => (k, .text v)

/-- Reads an INI file. -/
def read? (t : Text) : Option Value := do
  let lines ← (Text.lines t).mapM readLine?
  let (bindings, sections) := group lines
  return .ofFields (fields bindings ++ sections.map fun (name, b) => (name, .ofFields (fields b)))

end Folio.Ini
