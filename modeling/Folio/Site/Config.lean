import Folio.Data.Toml.Reader
import Folio.Data.Width
import Folio.Disk.Documents
import Folio.Site.Error
import Folio.Text.Blank

/-!
# The configuration of a project

A project is configured by a TOML file in its root directory. Every setting may
be missing and has a default. `Config.ofFields?` reads the settings from the
table of such a file, and `Config.load` finds the file.
-/

namespace Folio

/-- Where global variables are read from. -/
inductive GlobalsFile where
  /-- The format is the extension of the path. -/
  | plain (path : Path)
  | typed (path : Path) (format : Text)
deriving DecidableEq

namespace GlobalsFile

/-- The path, from the description directory. -/
def path : GlobalsFile → Path
  | plain path => path
  | typed path _ => path

/-- The name of the format, in lower case. -/
def format : GlobalsFile → Text
  | plain path => (path.extension?.getD []).toLowerAscii
  | typed _ format => (Text.trim format).toLowerAscii

end GlobalsFile

/-- Settings for building again on changes. -/
structure WatchConfig where
  /-- How long all has to be quiet before a build starts, in milliseconds. -/
  debounce : Nat := 200
  /-- Patterns of paths whose changes start no build. -/
  ignore : List Text := []

/-- The settings of a project. -/
structure Config where
  description : Path := .ofString "site-description"
  output : Path := .ofString "site"
  /-- The manifest, from the description directory. -/
  manifest : Path := .ofString "out.txt"
  globals : Option GlobalsFile := none
  /-- Global variables, which hide those of the file. -/
  bindings : Dict Text := .empty
  /-- How many entries are built at a time. -/
  jobs : Option Nat := none
  strictFill : Bool := false
  prune : Bool := false
  watch : WatchConfig := {}

namespace Config

/-! ## Reading settings -/

/-- The fields of a table. A date counts as a table of one field. -/
def fields? : Toml.Item → Option (List (Text × Toml.Item))
  | .table fields => some fields
  | .datetime t => some [("$__toml_private_datetime".toList, .text t)]
  | _ => none

/-- A text. -/
def text? : Toml.Item → Option Text
  | .text t => some t
  | _ => none

/-- A path. -/
def path? (i : Toml.Item) : Option Path :=
  (text? i).map Path.mk

/-- A boolean. -/
def bool? : Toml.Item → Option Bool
  | .bool b => some b
  | _ => none

/-- An integer from `least` up to the greatest without a sign. -/
def count? (least : Nat) : Toml.Item → Option Nat
  | .integer i => if least ≤ i ∧ i ≤ Width.unsignedMax 64 then some i.toNat else none
  | _ => none

/-- Texts. -/
def texts? : Toml.Item → Option (List Text)
  | .array items => items.mapM text?
  | _ => none

/-- Texts by name. -/
def bindings? (i : Toml.Item) : Option (Dict Text) := do
  let pairs ← (← fields? i).mapM fun (k, v) => (text? v).map fun t => (k, t)
  return .ofList pairs

/-- The file of global variables: a path; or a path and a format, by name or in
that order. -/
def globals? (i : Toml.Item) : Option GlobalsFile :=
  if i.within (Width.signedMin 64) (Width.unsignedMax 64) then
    match i with
    | .text t => some (.plain ⟨t⟩)
    | .table fields => do
      let path ← path? (← fields.lookup "path".toList)
      let format ← text? (← fields.lookup "format".toList)
      return .typed path format
    | .array [path, format] => return .typed (← path? path) (← text? format)
    | _ => none
  else none

/-- A setting that may be missing. -/
def setting? {α : Type} (fields : List (Text × Toml.Item)) (key : String) (default : α)
    (read : Toml.Item → Option α) : Option α :=
  match fields.lookup key.toList with
  | none => some default
  | some i => read i

/-- The settings for building again, by name or in their order. -/
def watch? (i : Toml.Item) : Option WatchConfig :=
  let defaults : WatchConfig := {}
  match i with
  | .array [] => some defaults
  | .array [debounce] => do return { debounce := ← count? 0 debounce }
  | .array (debounce :: ignore :: _) => do return ⟨← count? 0 debounce, ← texts? ignore⟩
  | i => do
    let fields ← fields? i
    return ⟨← setting? fields "debounce_ms" defaults.debounce (count? 0),
      ← setting? fields "ignore" defaults.ignore texts?⟩

/-- The settings in the table of a configuration file. Settings that are not
known count for nothing. -/
def ofFields? (fields : List (Text × Toml.Item)) : Option Config := do
  let defaults : Config := {}
  if !Toml.Item.fieldsWithin (Width.signedMin 128) (Width.unsignedMax 128) fields then none
  return {
    description := ← setting? fields "description" defaults.description path?
    output := ← setting? fields "output" defaults.output path?
    manifest := ← setting? fields "manifest" defaults.manifest path?
    globals := ← setting? fields "globals" none fun i => (globals? i).map some
    bindings := ← setting? fields "variables" defaults.bindings bindings?
    jobs := ← setting? fields "jobs" none fun i => (count? 1 i).map some
    strictFill := ← setting? fields "strict_fill" defaults.strictFill bool?
    prune := ← setting? fields "prune" defaults.prune bool?
    watch := ← setting? fields "watch" defaults.watch watch? }

/-! ## Finding the file -/

/-- The places of the configuration file in a project, the preferred one first. -/
def places : List Path :=
  [.ofString "stencil.toml", .ofString ".stencil.toml", .ofString ".config/stencil.toml"]

/-- The configuration file of a project. -/
def find? (d : Disk) (root : Path) : Option Path :=
  (places.map root.join).find? d.isFile

/-- The settings in the configuration file of a project, when it has one. -/
def load? (d : Disk) (root : Path) : Except SiteError (Option Config) :=
  match find? d root with
  | none => .ok none
  | some path =>
    match d.readText path with
    | .error reason => .error (.unreadableConfig reason)
    | .ok content =>
      match (Toml.read? content).bind ofFields? with
      | some config => .ok (some config)
      | none => .error .malformedConfig

/-- The settings of a project. -/
def load (d : Disk) (root : Path) : Except SiteError Config :=
  (load? d root).map fun config => config.getD {}

/-! ## What the settings say -/

/-- The directory of the manifest and the templates. -/
def descriptionDir (c : Config) (root : Path) : Path :=
  root.join c.description

/-- The directory that outputs are relative to. -/
def outputDir (c : Config) (root : Path) : Path :=
  root.join c.output

/-- The path of the manifest. -/
def manifestPath (c : Config) (root : Path) : Path :=
  (c.descriptionDir root).join c.manifest

/-- How many entries can be built at a time at most. -/
def jobLimit : Nat :=
  Width.unsignedMax 61

/-- How many entries are built at a time on a machine that can do `available`
things at once. -/
def jobBound (c : Config) (available : Nat) : Nat :=
  max 1 (min (c.jobs.getD available) jobLimit)

end Config

end Folio
