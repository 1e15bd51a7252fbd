import Folio.Dict
import Folio.Path
import Folio.Statement.Scan

/-!
# Resolution of a section

`slot name` stands for the text bound to `name`. `resolveText` replaces each
such statement in one pass; the text that is put in is not read again. A
statement that cannot be replaced stays as it is written and gives a warning.
-/

namespace Folio

/-- The texts that slots can name. -/
abbrev Scope := Dict Text

/-- The command that stands for a bound text. -/
def slotCommand : Text := ['s', 'l', 'o', 't']

/-- Why a statement was left in place. -/
inductive WarningKind where
  | missingVariable (name : Text)
  | unknownCommand (command : Text)
  | invalidArguments (command : Text) (got : Nat)
deriving DecidableEq

/-- A statement that was left in place, and where it stands. -/
structure Warning where
  file : Path
  sectionName : Text
  statement : Text
  kind : WarningKind
deriving DecidableEq

/-- The text that a statement stands for, or why it stands for none. -/
def substitute (scope : Scope) (body : Text) : Except WarningKind Text :=
  match splitWords body with
  | [] => .error (.unknownCommand [])
  | command :: args =>
    if command = slotCommand then
      match args with
      | [name] =>
        match scope.get? name with
        | some text => .ok text
        | none => .error (.missingVariable name)
      | _ => .error (.invalidArguments command args.length)
    else .error (.unknownCommand command)

/-- The resolved text of some items, and each statement left in place with its
reason. -/
def resolveItems (scope : Scope) : List Item → Text × List (Text × WarningKind)
  | [] => ([], [])
  | .char c :: rest =>
    let (text, left) := resolveItems scope rest
    (c :: text, left)
  | .statement body :: rest =>
    let (text, left) := resolveItems scope rest
    match substitute scope body with
    | .ok bound => (bound ++ text, left)
    | .error kind => (delimited body ++ text, (delimited body, kind) :: left)

/-- Replaces the statements of the text of one section. -/
def resolveText (scope : Scope) (file : Path) (sectionName : Text) (text : Text) :
    Text × List Warning :=
  let (resolved, left) := resolveItems scope (items text)
  (resolved, left.map fun (statement, kind) => ⟨file, sectionName, statement, kind⟩)

/-- Sections without statements that could be replaced, and the warnings. -/
structure Resolved where
  sections : Dict Text
  warnings : List Warning

/-- Resolves every section, in the order of their names. -/
def resolve (scope : Scope) (file : Path) (sections : Dict Text) : Resolved where
  sections := sections.map fun name text => (resolveText scope file name text).1
  warnings := sections.toList.flatMap fun (name, text) => (resolveText scope file name text).2

/-- The wording of a reason. -/
def WarningKind.message : WarningKind → String
  | .missingVariable name =>
    let shown := String.ofList name
    s!"slot `{shown}` is not bound in scope"
  | .unknownCommand command =>
    let shown := String.ofList command
    s!"unknown command `{shown}`"
  | .invalidArguments command got =>
    let shown := String.ofList command
    s!"`{shown}` expects 1 argument(s), got {got}"

/-- The diagnostic code of a reason. -/
def WarningKind.code : WarningKind → String
  | .missingVariable _ => "stencil::missing_variable"
  | .unknownCommand _ => "stencil::unknown_command"
  | .invalidArguments _ _ => "stencil::invalid_arguments"

/-- What can be done about a statement left in place. -/
def WarningKind.help? : WarningKind → Option String
  | .missingVariable name =>
    let shown := String.ofList name
    some s!"fill `{shown}` in a descendant template or add it to the globals"
  | .unknownCommand _ => some "available commands: slot"
  | .invalidArguments _ _ => none

/-- The wording of a warning. -/
def Warning.message (w : Warning) : String :=
  let kind := w.kind.message
  let file := w.file.display
  let name := String.ofList w.sectionName
  let statement := String.ofList w.statement
  s!"{kind} in `{file}` (section `{name}`): {statement}"

end Folio
