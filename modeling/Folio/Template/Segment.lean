import Folio.Dict
import Folio.Path
import Folio.Statement.Scan

/-!
# Segmentation of a document

Three commands shape a document. `inherit` names its parent, `fill` and `def`
open a named section that runs to the next opening or to the end. They are cut
out of the text; every other statement stays where it is. A document without a
parent, or without any named section, also has its whole text as the anonymous
section.

`segment` fails at the first shaping statement, in document order, that has not
exactly one argument, that names a second parent, or, under the strict rule,
that opens a section before a parent is named.
-/

namespace Folio

/-- A template document and the path it was read from. -/
structure Document where
  path : Path
  text : Text
deriving DecidableEq

/-- Where parents are looked up, and whether a section may be opened before a
parent is named. -/
structure Rules where
  root : Path
  strictFill : Bool

/-- The name of the section that holds a whole document. -/
def anonymous : Text := ['.']

/-- The command that names the parent. -/
def inheritCommand : Text := ['i', 'n', 'h', 'e', 'r', 'i', 't']

/-- The command that opens a section. -/
def fillCommand : Text := ['f', 'i', 'l', 'l']

/-- Another spelling of the command that opens a section. -/
def defCommand : Text := ['d', 'e', 'f']

/-- What a shaping statement asks for. -/
inductive Mark where
  | inherit (target : Text)
  | opening (name : Text)
  | misused (command : Text) (got : Nat)
deriving DecidableEq

/-- Reads a shaping statement; any other statement is no mark. -/
def mark? (body : Text) : Option Mark :=
  match splitWords body with
  | [] => none
  | command :: args =>
    if command = inheritCommand then
      match args with
      | [target] => some (.inherit target)
      | _ => some (.misused command args.length)
    else if command = fillCommand ∨ command = defCommand then
      match args with
      | [name] => some (.opening name)
      | _ => some (.misused command args.length)
    else none

/-- A shaping statement with the text between it and the next one. -/
structure Cut where
  mark : Mark
  text : Text
deriving DecidableEq

/-- The text in front of the first shaping statement, and the cuts after it. -/
def cutAtMarks : List Item → Text × List Cut
  | [] => ([], [])
  | .char c :: rest =>
    let (text, cuts) := cutAtMarks rest
    (c :: text, cuts)
  | .statement body :: rest =>
    let (text, cuts) := cutAtMarks rest
    match mark? body with
    | some m => ([], ⟨m, text⟩ :: cuts)
    | none => (delimited body ++ text, cuts)

/-- What can be wrong with the shape of a document. -/
inductive ShapeError where
  | duplicateInherit
  | fillWithoutParent (name : Text)
  | invalidArguments (command : Text) (got : Nat)
deriving DecidableEq

/-- A fault in the shape of the document at `path`. -/
structure SegmentError where
  path : Path
  fault : ShapeError
deriving DecidableEq

/-- The fault of the leftmost faulty cut. `inherited` says whether a parent
was named before. -/
def firstFault? (strict inherited : Bool) : List Cut → Option ShapeError
  | [] => none
  | cut :: rest =>
    match cut.mark with
    | .misused command got => some (.invalidArguments command got)
    | .inherit _ => if inherited then some .duplicateInherit else firstFault? strict true rest
    | .opening name =>
      if strict && !inherited then some (.fillWithoutParent name)
      else firstFault? strict inherited rest

/-- The target of the first `inherit`. -/
def parentTarget? : List Cut → Option Text
  | [] => none
  | cut :: rest =>
    match cut.mark with
    | .inherit target => some target
    | _ => parentTarget? rest

/-- The text up to the next opening. -/
def textToOpening : List Cut → Text
  | [] => []
  | cut :: rest =>
    match cut.mark with
    | .opening _ => []
    | _ => cut.text ++ textToOpening rest

/-- The named sections in document order. -/
def namedSections : List Cut → List (Text × Text)
  | [] => []
  | cut :: rest =>
    match cut.mark with
    | .opening name => (name, cut.text ++ textToOpening rest) :: namedSections rest
    | _ => namedSections rest

/-- The parent of a document and its sections, with other statements left in
place. -/
structure Segmented where
  parent : Option Path
  sections : Dict Text

/-- Splits a document into its parent and its sections. -/
def segment (rules : Rules) (doc : Document) : Except SegmentError Segmented :=
  let (lead, cuts) := cutAtMarks (items doc.text)
  match firstFault? rules.strictFill false cuts with
  | some fault => .error ⟨doc.path, fault⟩
  | none =>
    let parent := (parentTarget? cuts).map fun target => rules.root.join ⟨target⟩
    let named := namedSections cuts
    let sections := Dict.ofList named
    if named = [] ∨ parent = none then
      .ok ⟨parent, sections.insert anonymous (lead ++ cuts.flatMap Cut.text)⟩
    else .ok ⟨parent, sections⟩

/-- The wording of a fault. -/
def SegmentError.message (e : SegmentError) : String :=
  let path := e.path.display
  match e.fault with
  | .duplicateInherit => s!"more than one `inherit` command in `{path}`"
  | .fillWithoutParent name =>
    let shown := String.ofList name
    s!"section `{shown}` in `{path}` is filled before any `inherit` command"
  | .invalidArguments command got =>
    let shown := String.ofList command
    s!"`{shown}` in `{path}` expects 1 argument(s), got {got}"

/-- The diagnostic code of a fault. -/
def SegmentError.code (e : SegmentError) : String :=
  match e.fault with
  | .duplicateInherit => "stencil::duplicate_inherit"
  | .fillWithoutParent _ => "stencil::fill_without_parent"
  | .invalidArguments _ _ => "stencil::invalid_arguments"

/-- What can be done about a fault. -/
def SegmentError.help? (e : SegmentError) : Option String :=
  match e.fault with
  | .duplicateInherit =>
    some "a template can inherit from a single parent, remove the extra `$<inherit ...>$`"
  | .fillWithoutParent _ =>
    some "add `$<inherit parent.html>$` above the first `fill`, or disable `strict_fill`"
  | .invalidArguments _ _ => none

end Folio
