import Folio.Data.Flatten
import Folio.Data.Ini
import Folio.Data.Json
import Folio.Data.Kdl.Reader
import Folio.Data.Toml.Reader
import Folio.Data.Width
import Folio.Data.Yaml.Resolve

/-!
# Files of global variables

A file of global variables has one of six formats. `Globals.parse` reads it as a
structured value; `Value.flatten` binds the names in it.
-/

namespace Folio.Globals

/-- Why a file of global variables gives no value. -/
inductive FormatError where
  | malformed
  | unsupported (format : Text)
deriving DecidableEq

/-- The value of a TOML document, in which an integer has at most 64 bits. -/
def ofToml (fields : List (Text × Toml.Item)) : Option Value :=
  if Toml.Item.fieldsWithin (Width.signedMin 64) (Width.signedMax 64) fields then
    some (Toml.Item.table fields).toValue
  else none

/-- The value of a file in the named format. -/
def parse (format : Text) (content : Text) : Except FormatError Value :=
  let checked (v : Option Value) : Except FormatError Value :=
    match v with
    | some value => .ok value
    | none => .error .malformed
  match String.ofList format with
  | "json" => checked (Json.read? content)
  | "toml" => checked ((Toml.read? content).bind ofToml)
  | "yaml" => checked (Yaml.read? content)
  | "yml" => checked (Yaml.read? content)
  | "kdl" => checked ((Kdl.read? content).map Kdl.toValue)
  | "ini" => checked (Ini.read? content)
  | _ => .error (.unsupported format)

end Folio.Globals
